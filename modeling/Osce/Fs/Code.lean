import Osce.Lib.Prog
import Osce.Layout

/-!
The block allocator and the inode layer of `fs.c`, as programs over the buffers, the
log and the inode cache. There is one device, `ROOTDEV`, so that device numbers
are left out. A buffer is named by its sector: the caller of `bread` has it to
itself until `brelse`.
-/
namespace Osce.Fs
open Osce.Lib Osce.Layout
open Bytes (word setWord word_zero word_setWord_same word_setWord_ne)

abbrev Entry := Fin NINODE

/-- In-memory copy of an inode; `valid` is the flag `I_VALID`. -/
structure Inode where
  inum : Nat
  ref : Int
  valid : Bool
  din : Dinode

/-- What the code does to the buffers, the log and the inode cache. Each operation is one
    section under a lock, or one access to what the caller has locked. -/
inductive FsOp where
  | bread (sector : Nat)
  /-- A change of the data of a buffer that the caller holds. -/
  | store (sector : Nat) (data : Block)
  | log_write (sector : Nat)
  | brelse (sector : Nat)
  | inode (e : Entry)
  /-- Assignments to the fields copied from disk. -/
  | modify (e : Entry) (f : Dinode → Dinode)
  /-- `devsw[major].read` and `devsw[major].write`. -/
  | devread (major : BitVec 16) (n : Nat)
  | devwrite (major : BitVec 16) (src : List UInt8)
  | panic (message : String)

@[reducible] def FsOp.Ans : FsOp → Type
  | .bread _ => Block
  | .inode _ => Inode
  | .devread _ _ => Option (List UInt8)
  | .devwrite _ _ => Option Nat
  | .panic _ => Empty
  | _ => Unit

abbrev FsSig : Sig := ⟨FsOp,FsOp.Ans⟩
abbrev FsProg := Prog FsSig

def bread (sector : Nat) : FsProg Block := Prog.perform (S := FsSig) (.bread sector)
def store (sector : Nat) (data : Block) : FsProg Unit := Prog.perform (S := FsSig) (.store sector data)
def log_write (sector : Nat) : FsProg Unit := Prog.perform (S := FsSig) (.log_write sector)
def brelse (sector : Nat) : FsProg Unit := Prog.perform (S := FsSig) (.brelse sector)
def inode (e : Entry) : FsProg Inode := Prog.perform (S := FsSig) (.inode e)
def modify (e : Entry) (f : Dinode → Dinode) : FsProg Unit := Prog.perform (S := FsSig) (.modify e f)
def panic {α : Type} (message : String) : FsProg α := .call (S := FsSig) (.panic message) Empty.elim

def readsb : FsProg Superblock := do
  let bp ← bread 1
  brelse 1
  pure (Superblock.ofBlock bp)

def bzero (bno : Nat) : FsProg Unit := do
  let _ ← bread bno
  store bno (Bytes.zero BSIZE)
  log_write bno
  brelse bno

/-- The first clear bit among the first `limit` ones of a bitmap block. -/
def firstClear (bp : Block) (limit : Nat) : Option Nat := (List.range limit).find? fun bi => !bp.bit bi

/-- The loop of `balloc` over the numbers that are the first of a bitmap block. -/
def balloc_from (sb : Superblock) : List Nat → FsProg Nat
  | [] => panic "balloc: out of blocks"
  | b :: rest => do
    let bp ← bread (BBLOCK b sb.ninodes)
    match firstClear bp (min BPB (sb.size - b)) with
    | some bi => do -- Is block free?
      store (BBLOCK b sb.ninodes) (bp.setBit bi) -- Mark block in use.
      log_write (BBLOCK b sb.ninodes)
      brelse (BBLOCK b sb.ninodes)
      bzero (b + bi)
      pure (b + bi)
    | none => do
      brelse (BBLOCK b sb.ninodes)
      balloc_from sb rest

/-- The numbers `0`, `BPB`, `2 * BPB` and so on below the size. -/
def bitmapStarts (size : Nat) : List Nat := (List.range ((size + BPB - 1) / BPB)).map (BPB * ·)

/-- Allocate a zeroed disk block. -/
def balloc : FsProg Nat := do
  let sb ← readsb
  balloc_from sb (bitmapStarts sb.size)

/-- Copy a modified in-memory inode to disk. -/
def iupdate (e : Entry) : FsProg Unit := do
  let ip ← inode e
  let bp ← bread (IBLOCK ip.inum)
  store (IBLOCK ip.inum) (putDinode bp (ip.inum % IPB) ip.din)
  log_write (IBLOCK ip.inum)
  brelse (IBLOCK ip.inum)

/-- Return the disk block address of the nth block in inode. If there is no such block,
    bmap allocates one. -/
def bmap (e : Entry) (bn : Nat) : FsProg Nat := do
  let ip ← inode e
  if bn < NDIRECT then
    if ip.din.addrs bn = 0 then do
      let addr ← balloc
      modify e (Dinode.setAddr · bn addr)
      pure addr
    else pure (ip.din.addrs bn)
  else if bn - NDIRECT < NINDIRECT then do
    -- Load indirect block, allocating if necessary.
    let addr ←
      if ip.din.addrs NDIRECT = 0 then do
        let addr ← balloc
        modify e (Dinode.setAddr · NDIRECT addr)
        pure addr
      else pure (ip.din.addrs NDIRECT)
    let bp ← bread addr
    if word bp (bn - NDIRECT) = 0 then do
      let entry ← balloc
      store addr (setWord bp (bn - NDIRECT) entry)
      log_write addr
      brelse addr
      pure entry
    else do
      brelse addr
      pure (word bp (bn - NDIRECT))
  else panic "bmap: out of range"

/-- How many bytes of a request for `n` at `off` are in the first block of it. -/
def chunk (off n : Nat) : Nat := min n (BSIZE - off % BSIZE)

/-- The loop of `readi`; each turn reads at least one byte, so that `n` turns are enough. -/
def readi_from (e : Entry) : Nat → Nat → Nat → FsProg (List UInt8)
  | 0, _, _ => pure []
  | turns + 1, off, n =>
    if n = 0 then pure []
    else do
      let addr ← bmap e (off / BSIZE)
      let bp ← bread addr
      brelse addr
      let rest ← readi_from e turns (off + chunk off n) (n - chunk off n)
      pure (bp.read (off % BSIZE) (chunk off n) ++ rest)

/-- Read data from inode: the bytes, or `none` for -1. -/
def readi (e : Entry) (off n : Nat) : FsProg (Option (List UInt8)) := do
  let ip ← inode e
  if ip.din.type = T_DEV then Prog.perform (S := FsSig) (.devread ip.din.major n)
  else if off > ip.din.size ∨ (off + n) % 2 ^ 32 < off then pure none
  else do
    let n := if off + n > ip.din.size then ip.din.size - off else n
    let bytes ← readi_from e n off n
    pure (some bytes)

/-- The loop of `writei`, which ends with the offset behind the last byte. -/
def writei_from (e : Entry) : Nat → Nat → List UInt8 → FsProg Nat
  | 0, off, _ => pure off
  | turns + 1, off, src =>
    if src.length = 0 then pure off
    else do
      let addr ← bmap e (off / BSIZE)
      let bp ← bread addr
      store addr (bp.write (off % BSIZE) (src.take (chunk off src.length)))
      log_write addr
      brelse addr
      writei_from e turns (off + chunk off src.length) (src.drop (chunk off src.length))

/-- Write data to inode: the number of bytes, or `none` for -1. -/
def writei (e : Entry) (src : List UInt8) (off : Nat) : FsProg (Option Nat) := do
  let ip ← inode e
  if ip.din.type = T_DEV then Prog.perform (S := FsSig) (.devwrite ip.din.major src)
  else if off > ip.din.size ∨ (off + src.length) % 2 ^ 32 < off then pure none
  else if (off + src.length) % 2 ^ 32 > MAXFILE * BSIZE then pure none
  else do
    let off ← writei_from e src.length off src
    let ip ← inode e
    if src.length > 0 ∧ off > ip.din.size then do
      modify e (fun d => { d with size := off })
      iupdate e
      pure (some src.length)
    else pure (some src.length)

/-- A file name in a field of `DIRSIZ` bytes: it ends before the first zero. -/
def cname (bytes : List UInt8) : List UInt8 := (bytes.take DIRSIZ).takeWhile (· ≠ 0)

/-- `strncmp(s, t, DIRSIZ) == 0`. -/
def namecmp (s t : List UInt8) : Bool := cname s == cname t

/-- `strncpy(field, name, DIRSIZ)`: the name, and zeros behind it. -/
def strncpy (name : List UInt8) : List UInt8 := cname name ++ List.replicate (DIRSIZ - (cname name).length) 0

end Osce.Fs
