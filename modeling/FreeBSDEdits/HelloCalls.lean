import FreeBSDEdits.HelloVolume

namespace FreeBSDEdits

/-- The indices of `for (int i = 1; i < NUM_BLOCKS; i++)`. -/
def blockRange : List Nat := List.range' 1 (numBlocks - 1)

/-- The search that opens every call: the first marked block whose header holds `path`, with
the header read last. -/
def findFile (path : CString) : List Nat → World → Metadata → World × Metadata × Option Nat
  | [], w, md => (w, md, none)
  | i :: is, w, md =>
    if w.bitmap i = 1 then
      let (w, md) := (w.lseek (blockOffset (.ofNat i))).readMd md
      if md.name = path then (w, md, some i) else findFile path is w md
    else findFile path is w md

def firstFree (bitmap : Nat → Int32) : Option Nat := blockRange.find? (fun i => bitmap i = 0)

def rootStat : Stat := ⟨0o40755, 2, 0, ⟨0, 0⟩, ⟨0, 0⟩, ⟨0, 0⟩⟩

def fileStat (md : Metadata) : Stat :=
  ⟨0o100666, 1, md.fileSize.toInt, md.createTime, md.accessTime, md.modifyTime⟩

def helloGetattr (w : World) (env : Env) (path : CString) : World × Reply :=
  let w := ((w.openFile .rdonly).lseek 4).readBitmap
  if path = rootPath then (w, .attr rootStat)
  else match findFile path blockRange w env.md with
    | (w, md, some _) => (w, .attr (fileStat md))
    | (w, _, none) => (w, .err .enoent)

/-- The loop of hello_readdir; `md.filename + 1` skips the slash. -/
def listFiles : List Nat → World → Metadata → World × List CString
  | [], w, _ => (w, [])
  | i :: is, w, md =>
    if w.bitmap i = 1 then
      let (w, md) := (w.lseek (blockOffset (.ofNat i))).readMd md
      let (w, names) := listFiles is w md
      (w, if md.name ≠ [] then md.name.drop 1 :: names else names)
    else listFiles is w md

def helloReaddir (w : World) (env : Env) (path : CString) : World × Reply :=
  let w := w.openFile .rdonly
  if path ≠ rootPath then (w, .err .enoent)
  else
    let (w, names) := listFiles blockRange w env.md
    (w, .entries ([46] :: [46, 46] :: names))

/-- The write goes to the data area behind the header, on a descriptor opened O_RDONLY. -/
def helloOpen (w : World) (env : Env) (path : CString) : World × Reply :=
  match findFile path blockRange (w.openFile .rdonly) env.md with
  | (w, md, some _) => (w.writeMd { md with accessTime := env.now 0 }, .ok)
  | (w, _, none) => (w, .err .enoent)

/-- The loop of hello_read and hello_write that copies the blocks of a chain into `buffer`;
`none` when it has not left the chain after `fuel` blocks. -/
def stageChain : Nat → World → Metadata → (Int → UInt8) → Nat →
    Option (World × (Int → UInt8) × Nat)
  | 0, _, _, _, _ => none
  | fuel + 1, w, md, buffer, byteCount =>
    let (w, buffer) := w.readBuffer buffer byteCount usableSpace
    let byteCount := byteCount + usableSpace
    if md.next ≠ 0 then
      let (w, md) := (w.lseek (blockOffset md.next)).readMd md
      stageChain fuel w md buffer byteCount
    else some (w, buffer, byteCount)

/-- The `size` hello_read returns; `offset + size` is computed in `size_t`. -/
def readSize (fileSize : Int32) (size : UInt64) (offset : Int64) : Nat :=
  if offset.toInt < fileSize.toInt then
    if cSize (offset.toInt + size.toNat) > cSize fileSize.toInt then
      cSize (fileSize.toInt - offset.toInt)
    else size.toNat
  else 0

def copyOut (buffer : Int → UInt8) (offset : Int) (n : Nat) : List UInt8 :=
  (List.range n).map (fun k : Nat => buffer (offset + k))

def helloRead (w : World) (env : Env) (path : CString) (size : UInt64) (offset : Int64) :
    Option (World × Reply) :=
  match findFile path blockRange (w.openFile .rdwr) env.md with
  | (w, _, none) => some (w, .err .enoent)
  | (w, md, some fileStart) => do
    let fileSize := md.fileSize
    let start := blockOffset (.ofNat fileStart)
    let (w, buffer, _) ←
      stageChain numBlocks (w.lseek (start + sizeofMetadata)) md env.buffer 0
    let n := readSize fileSize size offset
    let (w, md) := (w.lseek start).readMd md
    let w := (w.lseek start).writeMd { md with accessTime := env.now 0 }
    some (w, .data (.ofNat n) (copyOut buffer offset.toInt n))

/-- `memcpy(buffer + offset, buf, size)` -/
def copyIn (buffer : Int → UInt8) (offset : Int) (size : Nat) (buf : Nat → UInt8) :
    Int → UInt8 :=
  fun k => if offset ≤ k ∧ k < offset + size then buf (k - offset).toNat else buffer k

/-- The loop of hello_write and hello_truncate that takes the first free block as the
successor of `currentBlock`; it leaves `md` zeroed. -/
def linkFree (w : World) (md : Metadata) (currentBlock : Int32) :
    World × Option (Metadata × Int32) :=
  match firstFree w.bitmap with
  | none => (w, none)
  | some i =>
    let w := w.setBitmap i 1
    let md := { md with next := .ofNat i }
    let w := (w.lseek (blockOffset currentBlock)).writeMd md
    (w, some (.zero, md.next))

/-- `new_file_size -= USABLE_SPACE`, computed in `size_t` and stored in an `int`. -/
def lowerInt (x : Int32) : Int32 := .ofInt (x.toInt - usableSpace)

theorem lowerInt_emod {x : Int32} (h : cSize x.toInt > usableSpace) :
    ((lowerInt x).toInt % 2 ^ 32).toNat = (x.toInt % 2 ^ 32).toNat - 4016 := by
  have hl := x.le_toInt
  have hu := x.toInt_lt
  have h' : cSize x.toInt > 4016 := h
  have he : lowerInt x = .ofInt (x.toInt - 4016) := rfl
  rw [he, Int32.toInt_ofInt]
  simp only [cSize] at h'
  simp only [Int.bmod, Int32.size]
  omega

theorem cSize_pos_emod {x : Int32} (h : cSize x.toInt > usableSpace) :
    4016 < (x.toInt % 2 ^ 32).toNat := by
  have hl := x.le_toInt
  have hu := x.toInt_lt
  have h' : cSize x.toInt > 4016 := h
  simp only [cSize] at h'
  omega

/-- The writing loop of hello_write. `new_file_size` is an `int` that is compared with, and
lowered by, a `size_t`. -/
def writeLoop (buffer : Int → UInt8) (w : World) (md : Metadata) (currentBlock newFileSize : Int32)
    (bytesWritten : Nat) : World × Option Errno :=
  let data := fun k : Nat => buffer (bytesWritten + k)
  if _h : cSize newFileSize.toInt > usableSpace then
    let (w, next) :=
      if md.next = 0 then linkFree w md currentBlock
      else
        let (w, md) := (w.lseek (blockOffset currentBlock)).readMd md
        let nextBlock := md.next
        let (w, md) := (w.lseek (blockOffset nextBlock)).readMd md
        (w, some (md, nextBlock))
    match next with
    | none => (w, some .enomem)
    | some (md, nextBlock) =>
      let w := (w.lseek (blockOffset currentBlock + sizeofMetadata)).write usableSpace data
      writeLoop buffer w md nextBlock (lowerInt newFileSize) (bytesWritten + usableSpace)
  else
    let w := w.lseek (blockOffset currentBlock + sizeofMetadata)
    (w.write (cSize newFileSize.toInt) data, none)
termination_by (newFileSize.toInt % 2 ^ 32).toNat
decreasing_by
  have := cSize_pos_emod _h
  rw [lowerInt_emod _h]
  omega

def helloWrite (w : World) (env : Env) (path : CString) (buf : Nat → UInt8) (size : UInt64)
    (offset : Int64) : Option (World × Reply) :=
  match findFile path blockRange (w.openFile .rdwr) env.md with
  | (w, _, none) => some (w, .err .enoent)
  | (w, md, some fileStart) => do
    let start := blockOffset (.ofNat fileStart)
    let (w, buffer, _) ←
      stageChain numBlocks (w.lseek (start + sizeofMetadata)) md env.buffer 0
    let newFileSize := Int32.ofInt (offset.toInt + size.toNat)
    if newFileSize.toInt > maxRequestSize then some (w, .err .enobufs)
    else
      let buffer := copyIn buffer offset.toInt size.toNat buf
      let (w, md) := (w.lseek start).readMd md
      let md := { md with
        fileSize := newFileSize, accessTime := env.now 0, modifyTime := env.now 1 }
      let w := (w.lseek start).writeMd md
      match writeLoop buffer w md (.ofNat fileStart) newFileSize 0 with
      | (w, some e) => some (w, .err e)
      | (w, none) => some ((w.lseek 4).writeBitmap, .written (.ofNat size.toNat))

/-- The first walk of a shrinking truncate: the successor of the last block that is kept.
The `off_t size` is compared with, and lowered by, a `size_t`: the loop runs on its value as one. -/
def keepBlocks (w : World) (md : Metadata) (currentBlock : Int32) (size : Nat) :
    World × Metadata × Int32 :=
  let (w, md) := (w.lseek (blockOffset currentBlock)).readMd md
  if size > usableSpace then keepBlocks w md md.next (size - usableSpace)
  else (w, md, md.next)
termination_by size
decreasing_by simp only [usableSpace, blockSize, sizeofMetadata] at *; omega

/-- The second walk of a shrinking truncate, which clears the bits of the blocks behind. -/
def dropBlocks : Nat → World → Metadata → Int32 → Option World
  | 0, _, _, _ => none
  | fuel + 1, w, md, currentBlock =>
    if currentBlock = 0 then some w
    else
      let (w, md) := (w.lseek (blockOffset currentBlock)).readMd md
      dropBlocks fuel (w.setBitmap currentBlock.toInt 0) md md.next

/-- The loop of a growing truncate, again on the `size_t` value of `size`; as that gets smaller,
`size + 1` rounds are enough. The headers it links are written to a descriptor opened O_RDONLY,
and the block it goes on with is read from disk. -/
def growBlocks : Nat → World → Metadata → Int32 → Nat → World × Option Errno
  | 0, w, _, _, _ => (w, none)
  | rounds + 1, w, md, currentBlock, size =>
    let (w, md) := (w.lseek (blockOffset currentBlock)).readMd md
    if size > usableSpace then
      if md.next = 0 then
        match linkFree w md currentBlock with
        | (w, none) => (w, some .enomem)
        | (w, some (md, nextBlock)) => growBlocks rounds w md nextBlock (size - usableSpace)
      else growBlocks rounds (w.lseek (blockOffset md.next)) md md.next (size - usableSpace)
    else (w, none)

def helloTruncate (w : World) (env : Env) (path : CString) (size : Int64) :
    Option (World × Reply) :=
  match findFile path blockRange (w.openFile .rdonly) env.md with
  | (w, _, none) => some (w, .err .enoent)
  | (w, md, some fileStart) => do
    let fileSize := md.fileSize
    let md := { md with
      fileSize := .ofInt size.toInt, accessTime := env.now 0, modifyTime := env.now 1 }
    let w := (w.lseek (blockOffset (.ofNat fileStart))).writeMd md
    if size.toInt < fileSize.toInt then
      let (w, md, nextBlock) := keepBlocks w md (.ofNat fileStart) (cSize size.toInt)
      let w ← dropBlocks numBlocks w md nextBlock
      some ((w.lseek 4).writeBitmap, .ok)
    else if size.toInt > fileSize.toInt then
      match growBlocks (cSize size.toInt + 1) w md (.ofNat fileStart) (cSize size.toInt) with
      | (w, some e) => some (w, .err e)
      | (w, none) => some ((w.lseek 4).writeBitmap, .ok)
    else some ((w.lseek 4).writeBitmap, .ok)

/-- `while (md.next != 0)` in hello_unlink. -/
def clearChain : Nat → World → Metadata → Option World
  | 0, _, _ => none
  | fuel + 1, w, md =>
    if md.next ≠ 0 then
      let (w, md') := ((w.setBitmap md.next.toInt 0).lseek (blockOffset md.next)).readMd md
      clearChain fuel w md'
    else some w

/-- hello_unlink behind its search. -/
def unlinkFound : World × Metadata × Option Nat → Option (World × Reply)
  | (w, md, some i) => do
    let w ← clearChain numBlocks (w.setBitmap i 0) md
    some ((w.lseek 4).writeBitmap, .ok)
  | (w, _, none) => some (w, .err .enoent)

def helloUnlink (w : World) (env : Env) (path : CString) : Option (World × Reply) :=
  unlinkFound (findFile path blockRange ((w.openFile .rdwr).lseek 4).readBitmap env.md)

/-- hello_create behind its search. -/
def createFound (env : Env) (path : CString) : World × Metadata × Option Nat → World × Reply
  | (w, _, some _) => (w, .err .eexist)
  | (w, md, none) =>
    match firstFree w.bitmap with
    | none => (w, .err .enomem)
    | some i =>
      -- the bit is on disk before the length of the name is looked at
      let w := ((w.setBitmap i 1).lseek 4).writeBitmap
      if path.length ≥ maxFilenameLength then (w, .err .enametoolong)
      else
        let md := { md.strcpyFilename path with
          fileSize := 0, createTime := env.now 0, modifyTime := env.now 1, next := 0 }
        ((w.lseek (blockOffset (.ofNat i))).writeMd md, .ok)

def helloCreate (w : World) (env : Env) (path : CString) : World × Reply :=
  createFound env path
    (findFile path blockRange ((w.openFile .rdwr).lseek 4).readBitmap env.md)

inductive Call
  | getattr (path : Option Path)
  | readdir (path : Option Path)
  | open (path : Path)
  | read (path : Path) (size : UInt64) (offset : Int64)
  | write (path : Path) (buf : Nat → UInt8) (size : UInt64) (offset : Int64)
  | truncate (path : Path) (size : Int64)
  | unlink (path : Path)
  | create (path : Path)

/-- One call with what it finds on its stack; `none` when one of its chain loops never ends. -/
def fuseCall (w : World) : Env × Call → Option (World × Reply)
  | (env, .getattr path) => some (helloGetattr w env (dirChars path))
  | (env, .readdir path) => some (helloReaddir w env (dirChars path))
  | (env, .open path) => some (helloOpen w env path.chars)
  | (env, .read path size offset) => helloRead w env path.chars size offset
  | (env, .write path buf size offset) => helloWrite w env path.chars buf size offset
  | (env, .truncate path size) => helloTruncate w env path.chars size
  | (env, .unlink path) => helloUnlink w env path.chars
  | (env, .create path) => some (helloCreate w env path.chars)

/-- `main` up to `fuse_main`; a missing file counts as an empty one. -/
def mount (file : ByteFile) : World :=
  let w : World := ⟨file.resize (blockSize * numBlocks), ⟨.rdwr, 0⟩, fun _ => 0, []⟩
  let magicTest := int32At w.file.byte 0
  let w := w.advance 4
  let w := if magicTest = 0 then
      (((w.setBitmap 0 1).lseek 0).write 4 (LittleEndian.byteAt magicNumber)).writeBitmap
    else w
  { (w.lseek 4).readBitmap with log := [] }

/-- A freshly formatted volume. -/
def formatted : World := mount .empty

end FreeBSDEdits
