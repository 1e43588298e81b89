import Xv6Bfs.Fs.Directory
import Xv6Bfs.Log.Protocol
import Xv6Bfs.Sysfile.Store

namespace Xv6Bfs.Mkfs

open Lib.Bytes Lib.Execution Disk Fs
open Log (LOGSIZE)
open Sysfile (NINODES ROOTINO)

def nbitmap : ℕ := FSSIZE / (BSIZE * 8) + 1

def ninodeblocks : ℕ := NINODES / IPB + 1

def nlog : ℕ := LOGSIZE

def nmeta : ℕ := 2 + nlog + ninodeblocks + nbitmap

def nblocks : ℕ := FSSIZE - nmeta

def superblock : Superblock where
  size := FSSIZE
  nblocks := nblocks
  ninodes := NINODES
  nlog := nlog
  logstart := 2
  inodestart := 2 + nlog
  bmapstart := 2 + nlog + ninodeblocks
  log_le := le_rfl
  inodes_lt := by decide
  bmap_lt := by decide
  size_lt := by decide

def fields (sb : Superblock) : List ℕ :=
  [sb.size, sb.nblocks, sb.ninodes, sb.nlog, sb.logstart, sb.inodestart, sb.bmapstart]

def zeroes : Block := fun _ ↦ 0

def superBlock (sb : Superblock) : Block := patch zeroes 0 ((fields sb).flatMap (toBytes 4))

structure State where
  img : Image
  sectors : ℕ
  freeinode : ℕ
  freeblock : ℕ

/-- How `mkfs` may give up: a sector number that is too large, a read past the end of the image, or
an assertion that fails. -/
inductive Exit
  | sector
  | read
  | rootino
  | slash
  | maxfile
  | used
  deriving DecidableEq, Repr

/-- A file of the host. `read` returns the `chunks` one after another, and then 0. -/
structure HostFile where
  name : List UInt8
  chunks : List (List UInt8)
  chunk_pos : ∀ c ∈ chunks, 0 < c.length
  chunk_le : ∀ c ∈ chunks, c.length ≤ BSIZE

def HostFile.bytes (f : HostFile) : List UInt8 := f.chunks.flatten

/-- The name of the file in the image: a leading `_` is skipped. -/
def HostFile.target (f : HostFile) : List UInt8 := if f.name.head? = some 95 then f.name.tail else f.name

namespace State

def wsect (sec : ℕ) (buf : Block) (s : State) : Except Exit State :=
  if sec > FSSIZE then .error .sector
  else .ok { s with img := Function.update s.img sec buf, sectors := max s.sectors (sec + 1) }

def rsect (sec : ℕ) (s : State) : Except Exit Block :=
  if sec > FSSIZE then .error .sector
  else if s.sectors ≤ sec then .error .read
  else .ok (s.img sec)

variable (sb : Superblock)

def winode (inum : ℕ) (ip : Dinode) (s : State) : Except Exit State := do
  let buf ← s.rsect (sb.iblock inum)
  s.wsect (sb.iblock inum) (putDinode buf (DINODE * (inum % IPB)) ip)

def rinode (inum : ℕ) (s : State) : Except Exit Dinode := do
  let buf ← s.rsect (sb.iblock inum)
  .ok (getDinode buf (DINODE * (inum % IPB)))

def ialloc (type : ℕ) (s : State) : Except Exit (ℕ × State) := do
  let inum := s.freeinode
  let s ← { s with freeinode := s.freeinode + 1 }.winode sb inum ⟨type, 0, 0, 1, 0, fun _ ↦ 0⟩
  .ok (inum, s)

def usedMap (used : ℕ) : Block := (List.range used).foldl setBit zeroes

def balloc (used : ℕ) (s : State) : Except Exit State :=
  if used < BSIZE * 8 then s.wsect sb.bmapstart (usedMap used) else .error .used

def fillAddr (i : Fin (NDIRECT + 1)) (din : Dinode) (s : State) : Dinode × State :=
  if din.addrs i = 0 then
    ({ din with addrs := Function.update din.addrs i s.freeblock },
      { s with freeblock := s.freeblock + 1 })
  else (din, s)

def sector (fbn : ℕ) (din : Dinode) (s : State) : Except Exit (ℕ × Dinode × State) :=
  if h : fbn < NDIRECT then
    let i : Fin (NDIRECT + 1) := ⟨fbn, Nat.lt_succ_of_lt h⟩
    let (din, s) := s.fillAddr i din
    .ok (din.addrs i, din, s)
  else do
    let (din, s) := s.fillAddr (Fin.last NDIRECT) din
    let indirect ← s.rsect (din.addrs (Fin.last NDIRECT))
    if word indirect (fbn - NDIRECT) = 0 then do
      let indirect := setWord indirect (fbn - NDIRECT) s.freeblock
      let s ← { s with freeblock := s.freeblock + 1 }.wsect (din.addrs (Fin.last NDIRECT)) indirect
      .ok (word indirect (fbn - NDIRECT), din, s)
    else .ok (word indirect (fbn - NDIRECT), din, s)

/-- The loop of `iappend`. Every round appends at least one byte, so `p.length` rounds are enough. -/
def appendLoop : ℕ → List UInt8 → ℕ → Dinode → State → Except Exit (ℕ × Dinode × State)
  | 0, _, off, din, s => .ok (off, din, s)
  | fuel + 1, p, off, din, s =>
    if p.length = 0 then .ok (off, din, s)
    else
      let fbn := off / BSIZE
      if fbn < MAXFILE then do
        let (x, din, s) ← s.sector fbn din
        let n1 := min p.length ((fbn + 1) * BSIZE - off)
        let buf ← s.rsect x
        let s ← s.wsect x (patch buf (off - fbn * BSIZE) (p.take n1))
        appendLoop fuel (p.drop n1) (off + n1) din s
      else .error .maxfile

def iappend (inum : ℕ) (p : List UInt8) (s : State) : Except Exit State := do
  let din ← s.rinode sb inum
  let (off, din, s) ← appendLoop p.length p din.size din s
  s.winode sb inum { din with size := off }

/-- One round of the loop of `main` over its arguments. -/
def addFile (rootino : ℕ) (f : HostFile) (s : State) : Except Exit State :=
  if 47 ∈ f.name then .error .slash
  else do
    let (inum, s) ← s.ialloc sb T_FILE
    let s ← s.iappend sb rootino (dirent inum f.target)
    exec (iappend sb inum) f.chunks s

def fixSize (rootino : ℕ) (s : State) : Except Exit State := do
  let din ← s.rinode sb rootino
  s.winode sb rootino { din with size := (din.size / BSIZE + 1) * BSIZE }

end State

def start : State := ⟨fun _ ↦ zeroes, 0, 1, nmeta⟩

/-- `main`, after it has computed the super block. -/
def build (sb : Superblock) (files : List HostFile) : Except Exit Image := do
  let s ← exec (fun i s ↦ s.wsect i zeroes) (List.range FSSIZE) start
  let s ← s.wsect 1 (superBlock sb)
  let (rootino, s) ← s.ialloc sb T_DIR
  if rootino = ROOTINO then do
    let s ← s.iappend sb rootino (dirent rootino [46])
    let s ← s.iappend sb rootino (dirent rootino [46, 46])
    let s ← exec (State.addFile sb rootino) files s
    let s ← s.fixSize sb rootino
    let s ← s.balloc sb s.freeblock
    .ok s.img
  else .error .rootino

def main (files : List HostFile) : Except Exit Image := build superblock files

end Xv6Bfs.Mkfs
