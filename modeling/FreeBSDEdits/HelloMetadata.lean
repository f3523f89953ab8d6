import FreeBSDEdits.LittleEndian
import Mathlib.Data.List.OfFn
import Mathlib.Data.List.TakeWhile

namespace FreeBSDEdits

open LittleEndian

abbrev magicNumber : Nat := 0xfa19283e
abbrev blockSize : Nat := 4096
abbrev numBlocks : Nat := 400
abbrev maxFilenameLength : Nat := 20
abbrev maxRequestSize : Nat := 128 * 1024

/-- `sizeof(struct metadata)` on amd64, with the four bytes of padding behind `next`. -/
abbrev sizeofMetadata : Nat := 80
abbrev usableSpace : Nat := blockSize - sizeofMetadata

/-- `sizeof(bitmap)` -/
abbrev sizeofBitmap : Nat := 4 * numBlocks

/-- A `char *` string without its terminating NUL. -/
abbrev CString := List UInt8

@[ext]
structure Timespec where
  tvSec : Int64
  tvNsec : Int64

/-- `struct metadata`. -/
@[ext]
structure Metadata where
  filename : Fin maxFilenameLength → UInt8
  fileSize : Int32
  createTime : Timespec
  accessTime : Timespec
  modifyTime : Timespec
  next : Int32
  padding : Int32

def int32At (f : Nat → UInt8) (pos : Nat) : Int32 :=
  (UInt32.ofNat (toNat (fun k => f (pos + k)) 4)).toInt32

def int64At (f : Nat → UInt8) (pos : Nat) : Int64 :=
  (UInt64.ofNat (toNat (fun k => f (pos + k)) 8)).toInt64

def int32Byte (x : Int32) (k : Nat) : UInt8 := byteAt x.toUInt32.toNat k

def int64Byte (x : Int64) (k : Nat) : UInt8 := byteAt x.toUInt64.toNat k

theorem int32At_congr {f g : Nat → UInt8} {p q : Nat} (h : ∀ k < 4, f (p + k) = g (q + k)) :
    int32At f p = int32At g q := by
  rw [int32At, int32At, toNat_congr h]

theorem int64At_congr {f g : Nat → UInt8} {p q : Nat} (h : ∀ k < 8, f (p + k) = g (q + k)) :
    int64At f p = int64At g q := by
  rw [int64At, int64At, toNat_congr h]

theorem int32At_int32Byte {f : Nat → UInt8} {pos : Nat} {x : Int32}
    (h : ∀ k < 4, f (pos + k) = int32Byte x k) : int32At f pos = x := by
  have hn : toNat (byteAt x.toUInt32.toNat) 4 = x.toUInt32.toNat := by
    rw [toNat_byteAt]
    exact Nat.mod_eq_of_lt x.toUInt32.toNat_lt
  rw [int32At, toNat_congr h]
  change (UInt32.ofNat (toNat (byteAt x.toUInt32.toNat) 4)).toInt32 = x
  rw [hn]
  simp

theorem int64At_int64Byte {f : Nat → UInt8} {pos : Nat} {x : Int64}
    (h : ∀ k < 8, f (pos + k) = int64Byte x k) : int64At f pos = x := by
  have hn : toNat (byteAt x.toUInt64.toNat) 8 = x.toUInt64.toNat := by
    rw [toNat_byteAt]
    exact Nat.mod_eq_of_lt x.toUInt64.toNat_lt
  rw [int64At, toNat_congr h]
  change (UInt64.ofNat (toNat (byteAt x.toUInt64.toNat) 8)).toInt64 = x
  rw [hn]
  simp

namespace Metadata

/-- The memory image of the struct. -/
def toBytes (md : Metadata) (k : Nat) : UInt8 :=
  if h : k < 20 then md.filename ⟨k, h⟩
  else if k < 24 then int32Byte md.fileSize (k - 20)
  else if k < 32 then int64Byte md.createTime.tvSec (k - 24)
  else if k < 40 then int64Byte md.createTime.tvNsec (k - 32)
  else if k < 48 then int64Byte md.accessTime.tvSec (k - 40)
  else if k < 56 then int64Byte md.accessTime.tvNsec (k - 48)
  else if k < 64 then int64Byte md.modifyTime.tvSec (k - 56)
  else if k < 72 then int64Byte md.modifyTime.tvNsec (k - 64)
  else if k < 76 then int32Byte md.next (k - 72)
  else int32Byte md.padding (k - 76)

def ofBytes (f : Nat → UInt8) : Metadata where
  filename k := f k
  fileSize := int32At f 20
  createTime := ⟨int64At f 24, int64At f 32⟩
  accessTime := ⟨int64At f 40, int64At f 48⟩
  modifyTime := ⟨int64At f 56, int64At f 64⟩
  next := int32At f 72
  padding := int32At f 76

theorem ofBytes_congr {f g : Nat → UInt8} (h : ∀ k < 80, f k = g k) : ofBytes f = ofBytes g := by
  have h32 : ∀ p, p + 4 ≤ 80 → int32At f p = int32At g p :=
    fun p hp => int32At_congr (fun k hk => h _ (by omega))
  have h64 : ∀ p, p + 8 ≤ 80 → int64At f p = int64At g p :=
    fun p hp => int64At_congr (fun k hk => h _ (by omega))
  simp only [ofBytes, h32 20 (by omega), h32 72 (by omega), h32 76 (by omega),
    h64 24 (by omega), h64 32 (by omega), h64 40 (by omega), h64 48 (by omega),
    h64 56 (by omega), h64 64 (by omega)]
  congr 1
  funext k
  exact h k (Nat.lt_trans k.isLt (by decide))

theorem ofBytes_toBytes (md : Metadata) : ofBytes md.toBytes = md := by
  have hname : (fun k : Fin maxFilenameLength => md.toBytes k) = md.filename := by
    funext k
    simp [toBytes]
  have h32 : ∀ p x, (∀ k < 4, md.toBytes (p + k) = int32Byte x k) → int32At md.toBytes p = x :=
    fun p x h => int32At_int32Byte h
  have h64 : ∀ p x, (∀ k < 8, md.toBytes (p + k) = int64Byte x k) → int64At md.toBytes p = x :=
    fun p x h => int64At_int64Byte h
  unfold ofBytes
  rw [hname, h32 20 md.fileSize, h64 24 md.createTime.tvSec, h64 32 md.createTime.tvNsec,
    h64 40 md.accessTime.tvSec, h64 48 md.accessTime.tvNsec, h64 56 md.modifyTime.tvSec,
    h64 64 md.modifyTime.tvNsec, h32 72 md.next, h32 76 md.padding]
  all_goals
    intro k hk
    rw [toBytes, dif_neg (by omega)]
    repeat rw [if_neg (by omega)]
    first | rw [if_pos (by omega), Nat.add_sub_cancel_left] | rw [Nat.add_sub_cancel_left]

/-- `memset(&md, 0, sizeof(struct metadata))` -/
def zero : Metadata where
  filename _ := 0
  fileSize := 0
  createTime := ⟨0, 0⟩
  accessTime := ⟨0, 0⟩
  modifyTime := ⟨0, 0⟩
  next := 0
  padding := 0

theorem ofBytes_zero : ofBytes (fun _ => 0) = zero := by
  have hb : ∀ k < 80, (0 : UInt8) = zero.toBytes k := by decide
  rw [ofBytes_congr hb, ofBytes_toBytes]

/-- The C string in `filename`. -/
def name (md : Metadata) : CString := (List.ofFn md.filename).takeWhile (· ≠ 0)

/-- `filename` holds a NUL, so that strcmp stays inside the array. -/
def NulTerminated (md : Metadata) : Prop := ∃ k, md.filename k = 0

/-- `strcpy(md.filename, path)` for a `path` that fits with its NUL. -/
def strcpyFilename (md : Metadata) (path : CString) : Metadata :=
  { md with filename := fun k =>
      if h : k < path.length then path[k] else if k = path.length then 0 else md.filename k }

@[simp] theorem name_zero : zero.name = [] := by decide

theorem zero_nulTerminated : zero.NulTerminated := ⟨0, rfl⟩

theorem strcpyFilename_nulTerminated (md : Metadata) {path : CString}
    (hl : path.length < maxFilenameLength) : (md.strcpyFilename path).NulTerminated :=
  ⟨⟨path.length, hl⟩, by simp [strcpyFilename]⟩

/-- A name that was copied in whole is read back by strcmp as the same string. -/
theorem name_strcpyFilename (md : Metadata) {path : CString}
    (hl : path.length < maxFilenameLength) (h0 : 0 ∉ path) :
    (md.strcpyFilename path).name = path := by
  have hsplit : List.ofFn (md.strcpyFilename path).filename =
      path ++ (0 :: (List.ofFn md.filename).drop (path.length + 1)) := by
    apply List.ext_getElem
    · simp only [List.length_ofFn, List.length_append, List.length_cons, List.length_drop]
      omega
    · intro i hi hj
      rw [List.length_ofFn] at hi
      rw [List.getElem_ofFn]
      rcases Nat.lt_trichotomy i path.length with hp | hp | hp
      · simp [strcpyFilename, hp]
      · have he : (path ++ (0 :: (List.ofFn md.filename).drop (path.length + 1)))[i] = 0 := by
          rw [List.getElem_append_right (by omega)]
          simp [hp]
        rw [he]
        simp [strcpyFilename, hp]
      · obtain ⟨j, rfl⟩ : ∃ j, i = path.length + 1 + j := ⟨i - path.length - 1, by omega⟩
        have he : (path ++ (0 :: (List.ofFn md.filename).drop (path.length + 1)))[path.length + 1 + j] =
            md.filename ⟨path.length + 1 + j, hi⟩ := by
          rw [List.getElem_append_right (by omega)]
          have hs : path.length + 1 + j - path.length = j + 1 := by omega
          simp only [hs, List.getElem_cons_succ, List.getElem_drop, List.getElem_ofFn]
        rw [he]
        have hlt : ¬path.length + 1 + j < path.length := by omega
        have hne : path.length + 1 + j ≠ path.length := by omega
        simp only [strcpyFilename, hlt, hne, dite_false, if_false]
  rw [name, hsplit, List.takeWhile_append_of_pos]
  · simp
  · intro x hx
    simpa using fun he : x = 0 => h0 (he ▸ hx)

end Metadata

end FreeBSDEdits
