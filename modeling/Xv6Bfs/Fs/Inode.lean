import Xv6Bfs.Fs.Layout
import Xv6Bfs.Lib.Execution

namespace Xv6Bfs.Fs

open Lib.Bytes Lib.Execution Disk

def NINODE : ℕ := 50

theorem NINODE_pos : 0 < NINODE := by decide

def NDEV : ℕ := 10

def T_DIR : ℕ := 1

def T_FILE : ℕ := 2

def T_DEV : ℕ := 3

/-- `struct inode`. There is one device. -/
structure Inode extends Dinode where
  inum : ℕ
  ref : ℕ
  locked : Bool
  valid : Bool

/-- `cache` are the blocks as they are read through the buffer cache, and `logged` are the
arguments of the calls of `log_write` so far, the last one first. -/
structure State where
  cache : Image
  icache : Fin NINODE → Inode
  logged : List ℕ

/-- The panics, a sleep for a lock that is held, and a call that the caller must not make. -/
inductive Panic
  | ballocOutOfBlocks
  | freeingFreeBlock
  | iallocNoInodes
  | igetNoInodes
  | ilock
  | ilockNoType
  | iunlock
  | bmapOutOfRange
  | dirlookupNotDir
  | dirlookupRead
  | dirlinkRead
  | dirlink
  | isdirempty
  | unlinkNlink
  | unlinkWritei
  | createDots
  | createDirlink
  | sleeps
  | disabled
  deriving DecidableEq, Repr

/-- `devsw`: what a device gives to a reader of `n` bytes, and how many bytes it takes. -/
structure Devsw where
  read : ℕ → Option (ℕ → Option (List UInt8))
  write : ℕ → Option (List UInt8 → Option ℕ)

def noDevice : Devsw := ⟨fun _ ↦ none, fun _ ↦ none⟩

namespace State

def setInode (s : State) (k : Fin NINODE) (ip : Inode) : State :=
  { s with icache := Function.update s.icache k ip }

def setAddr (s : State) (k : Fin NINODE) (i : Fin (NDIRECT + 1)) (addr : ℕ) : State :=
  s.setInode k { s.icache k with addrs := Function.update (s.icache k).addrs i addr }

def logWrite (s : State) (b : ℕ) (data : Block) : State :=
  { s with cache := Function.update s.cache b data, logged := b :: s.logged }

def bzero (s : State) (bno : ℕ) : State := s.logWrite bno fun _ ↦ 0

variable (sb : Superblock)

/-- The loops of `balloc`, up to the first bit that is clear. -/
def ballocScan (s : State) : Option (ℕ × ℕ) :=
  (List.range ((sb.size + BPB - 1) / BPB)).findSome? fun k ↦
    let b := k * BPB
    let bp := s.cache (sb.bblock b)
    ((List.range (min BPB (sb.size - b))).find? fun bi ↦ !bitSet bp bi).map fun bi ↦ (b, bi)

def balloc (s : State) : Except Panic (ℕ × State) :=
  match s.ballocScan sb with
  | some (b, bi) =>
    let s := s.logWrite (sb.bblock b) (setBit (s.cache (sb.bblock b)) bi)
    .ok (b + bi, s.bzero (b + bi))
  | none => .error .ballocOutOfBlocks

def bfree (b : ℕ) (s : State) : Except Panic State :=
  let bp := s.cache (sb.bblock b)
  let bi := b % BPB
  if bitSet bp bi then .ok (s.logWrite (sb.bblock b) (clearBit bp bi))
  else .error .freeingFreeBlock

def dinode (s : State) (inum : ℕ) : Dinode :=
  getDinode (s.cache (sb.iblock inum)) (DINODE * (inum % IPB))

def putDinode (s : State) (inum : ℕ) (d : Dinode) : State :=
  s.logWrite (sb.iblock inum)
    (Fs.putDinode (s.cache (sb.iblock inum)) (DINODE * (inum % IPB)) d)

def iupdate (k : Fin NINODE) (s : State) : State :=
  s.putDinode sb (s.icache k).inum (s.icache k).toDinode

def iget (inum : ℕ) (s : State) : Except Panic (Fin NINODE × State) :=
  match (List.finRange NINODE).find? fun k ↦ 0 < (s.icache k).ref ∧ (s.icache k).inum = inum with
  | some k => .ok (k, s.setInode k { s.icache k with ref := (s.icache k).ref + 1 })
  | none =>
    match (List.finRange NINODE).find? fun k ↦ (s.icache k).ref = 0 with
    | some k => .ok (k, s.setInode k { s.icache k with inum := inum, ref := 1, valid := false })
    | none => .error .igetNoInodes

def ialloc (type : ℕ) (s : State) : Except Panic (Fin NINODE × State) :=
  match (List.range' 1 (sb.ninodes - 1)).find? fun inum ↦ (s.dinode sb inum).type = 0 with
  | some inum => (s.putDinode sb inum ⟨type, 0, 0, 0, 0, fun _ ↦ 0⟩).iget inum
  | none => .error .iallocNoInodes

def idup (k : Fin NINODE) (s : State) : State :=
  s.setInode k { s.icache k with ref := (s.icache k).ref + 1 }

def ilock (k : Fin NINODE) (s : State) : Except Panic State :=
  if (s.icache k).ref < 1 then .error .ilock
  else if (s.icache k).locked then .error .sleeps
  else if (s.icache k).valid then .ok (s.setInode k { s.icache k with locked := true })
  else
    let d := s.dinode sb (s.icache k).inum
    if d.type = 0 then .error .ilockNoType
    else .ok (s.setInode k { s.icache k with toDinode := d, locked := true, valid := true })

def iunlock (k : Fin NINODE) (s : State) : Except Panic State :=
  if (s.icache k).locked = false ∨ (s.icache k).ref < 1 then .error .iunlock
  else .ok (s.setInode k { s.icache k with locked := false })

def ballocAddr (k : Fin NINODE) (i : Fin (NDIRECT + 1)) (s : State) : Except Panic (ℕ × State) := do
  let (addr, s) ← s.balloc sb
  .ok (addr, s.setAddr k i addr)

/-- `a[bn] = addr = balloc(ip->dev)` in the indirect block, and `log_write(bp)`. -/
def ballocEntry (ind bn : ℕ) (s : State) : Except Panic (ℕ × State) := do
  let (addr, s) ← s.balloc sb
  .ok (addr, s.logWrite ind (setWord (s.cache ind) bn addr))

def bmap (k : Fin NINODE) (bn : ℕ) (s : State) : Except Panic (ℕ × State) :=
  if h : bn < NDIRECT then
    let i : Fin (NDIRECT + 1) := ⟨bn, Nat.lt_succ_of_lt h⟩
    if (s.icache k).addrs i = 0 then s.ballocAddr sb k i
    else .ok ((s.icache k).addrs i, s)
  else
    let bn := bn - NDIRECT
    if bn < NINDIRECT then do
      let (ind, s) ←
        if (s.icache k).addrs (Fin.last NDIRECT) = 0 then s.ballocAddr sb k (Fin.last NDIRECT)
        else .ok ((s.icache k).addrs (Fin.last NDIRECT), s)
      if word (s.cache ind) bn = 0 then s.ballocEntry sb ind bn
      else .ok (word (s.cache ind) bn, s)
    else .error .bmapOutOfRange

def itrunc (k : Fin NINODE) (s : State) : Except Panic State := do
  let s ← exec (fun i s ↦
    if (s.icache k).addrs i ≠ 0 then do
      let s ← s.bfree sb ((s.icache k).addrs i)
      .ok (s.setAddr k i 0)
    else .ok s) ((List.finRange NDIRECT).map Fin.castSucc) s
  let ind := (s.icache k).addrs (Fin.last NDIRECT)
  let s ←
    if ind ≠ 0 then do
      let s ← exec (fun j s ↦
        if word (s.cache ind) j ≠ 0 then s.bfree sb (word (s.cache ind) j) else .ok s)
        (List.range NINDIRECT) s
      let s ← s.bfree sb ind
      .ok (s.setAddr k (Fin.last NDIRECT) 0)
    else .ok s
  .ok ((s.setInode k { s.icache k with size := 0 }).iupdate sb k)

def iput (k : Fin NINODE) (s : State) : Except Panic State := do
  if (s.icache k).locked then .error .sleeps
  else
    let s ←
      if (s.icache k).valid ∧ (s.icache k).nlink = 0 ∧ (s.icache k).ref = 1 then do
        let s ← s.itrunc sb k
        let s := (s.setInode k { s.icache k with type := 0 }).iupdate sb k
        .ok (s.setInode k { s.icache k with valid := false })
      else .ok s
    .ok (s.setInode k { s.icache k with ref := (s.icache k).ref - 1 })

/-- The loop of `readi`, with `rest` bytes to go. Every round but the last one reads at least
one byte, so `rest` rounds are enough. -/
def readLoop (k : Fin NINODE) : ℕ → ℕ → ℕ → State → Except Panic (List UInt8 × State)
  | 0, _, _, s => .ok ([], s)
  | fuel + 1, off, rest, s =>
    if rest = 0 then .ok ([], s)
    else do
      let (b, s) ← s.bmap sb k (off / BSIZE)
      let m := min rest (BSIZE - off % BSIZE)
      let bytes := slice (s.cache b) (off % BSIZE) m
      let (tail, s) ← readLoop k fuel (off + m) (rest - m) s
      .ok (bytes ++ tail, s)

def writeLoop (k : Fin NINODE) : ℕ → List UInt8 → ℕ → State → Except Panic State
  | 0, _, _, s => .ok s
  | fuel + 1, src, off, s =>
    if src.length = 0 then .ok s
    else do
      let (b, s) ← s.bmap sb k (off / BSIZE)
      let m := min src.length (BSIZE - off % BSIZE)
      let s := s.logWrite b (patch (s.cache b) (off % BSIZE) (src.take m))
      writeLoop k fuel (src.drop m) (off + m) s

variable (devsw : Devsw)

/-- The result is `none` for -1. -/
def readi (k : Fin NINODE) (off n : ℕ) (s : State) : Except Panic (Option (List UInt8) × State) :=
  let ip := s.icache k
  if ip.type = T_DEV then
    if ip.major ≥ NDEV then .ok (none, s)
    else match devsw.read ip.major with
      | none => .ok (none, s)
      | some read => .ok (read n, s)
  else if off > ip.size ∨ (off + n) % 2 ^ 32 < off then .ok (none, s)
  else do
    let n := if (off + n) % 2 ^ 32 > ip.size then ip.size - off else n
    let (bytes, s) ← s.readLoop sb k n off n
    .ok (some bytes, s)

def writei (k : Fin NINODE) (src : List UInt8) (off : ℕ) (s : State) :
    Except Panic (Option ℕ × State) :=
  let ip := s.icache k
  let n := src.length
  if ip.type = T_DEV then
    if ip.major ≥ NDEV then .ok (none, s)
    else match devsw.write ip.major with
      | none => .ok (none, s)
      | some write => .ok (write src, s)
  else if off > ip.size ∨ (off + n) % 2 ^ 32 < off then .ok (none, s)
  else if (off + n) % 2 ^ 32 > MAXFILE * BSIZE then .ok (none, s)
  else do
    let s ← s.writeLoop sb k n src off
    let off := off + n
    if n > 0 ∧ off > (s.icache k).size then
      .ok (some n, (s.setInode k { s.icache k with size := off }).iupdate sb k)
    else .ok (some n, s)

end State

end Xv6Bfs.Fs
