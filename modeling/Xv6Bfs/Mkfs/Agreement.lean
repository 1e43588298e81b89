import Xv6Bfs.Fs.Dirents
import Xv6Bfs.Mkfs.Image

namespace Xv6Bfs.Mkfs

open Lib.Bytes Lib.Execution Lib.Ownership Disk Fs Function
open Sysfile (NINODES ROOTINO)

variable {sb : Superblock} {devsw : Devsw} {m : State} {s v : Fs.State} {k : Fin NINODE} {i n off : ℕ}
  {files : List HostFile} {f : HostFile} {x : ℕ × List UInt8} {img : Image}

def sizeOf (i n : ℕ) : ℕ := if i = 0 then (n / BSIZE + 1) * BSIZE else n

structure Made (sb : Superblock) (files : List HostFile) (v : Fs.State) : Prop where
  owned : Owned sb (v.bit sb) v.cache (v.dinode sb)
  bits : ∀ b, b < sb.datastart → v.bit sb b = true
  holes : ∀ i x, (inodes files)[i]? = some x →
    NoHoles (own sb v.cache (v.dinode sb)) (i + 1) (blocksOf x.2.length)
  type : ∀ i x, (inodes files)[i]? = some x → (v.dinode sb (i + 1)).type = x.1
  size : ∀ i x, (inodes files)[i]? = some x → (v.dinode sb (i + 1)).size = sizeOf i x.2.length
  bytes : ∀ i x, (inodes files)[i]? = some x →
    bytes v.cache (v.dinode sb (i + 1)) 0 x.2.length = x.2
  unused : ∀ i, i < sb.ninodes → i = 0 ∨ files.length + 1 < i → (v.dinode sb i).type = 0

theorem root_size (h : Built sb (inodes files) m s) :
    (s.dinode sb ROOTINO).size = DIRENT * (files.length + 2) := by
  have hroot := (h.inode 0 _ rfl).2
  rw [← length_rootBytes, ← congrArg List.length hroot]
  exact length_contents.symm

theorem fixed_fits (h : Built sb (inodes files) m s) (hlen : files.length ≤ NINODES - 2) :
    (fixed sb s).Fits := by
  have hfits : (s.dinode sb ROOTINO).Fits := Fs.State.dinode_fits
  refine ⟨hfits.type, hfits.major, hfits.minor, hfits.nlink, ?_, hfits.addrs⟩
  rw [fixed, root_size h]
  unfold NINODES at hlen
  unfold DIRENT BSIZE
  dsimp only
  omega

theorem Built.files_eq (h : Built sb (inodes files) m s) (hx : (inodes files)[i]? = some x) :
    bytes s.cache (s.dinode sb (i + 1)) 0 x.2.length = x.2 ∧
      (s.dinode sb (i + 1)).size = x.2.length := by
  have hfiles := (h.inode i x hx).2
  have hsize : (s.dinode sb (i + 1)).size = x.2.length := by
    rw [← congrArg List.length hfiles]
    exact length_contents.symm
  rw [← hsize]
  exact ⟨hfiles, rfl⟩

theorem Built.made_put (h : Built sb (inodes files) m s) (hlen : files.length ≤ NINODES - 2) :
    Made sb files (s.putDinode sb ROOTINO (fixed sb s)) := by
  have hfits := fixed_fits h hlen
  have hroot : ROOTINO < sb.ninodes := (h.type_ne (i := 0) rfl).1
  have hplaces : ∀ p, own sb s.cache (update (s.dinode sb) ROOTINO (fixed sb s)) (ROOTINO, p) =
      own sb s.cache (s.dinode sb) (ROOTINO, p) := by
    intro p
    refine own_congr (by rw [update_self]; exact Iff.rfl) fun _ _ _ ↦ ?_
    rw [update_self]
    rfl
  have hown := h.wf.own_putDinode hroot hfits hplaces
  have hself : (s.putDinode sb ROOTINO (fixed sb s)).dinode sb ROOTINO = fixed sb s :=
    Fs.State.dinode_putDinode_self hfits
  have hother : ∀ j, j ≠ ROOTINO →
      (s.putDinode sb ROOTINO (fixed sb s)).dinode sb j = s.dinode sb j :=
    fun j hj ↦ Fs.State.dinode_putDinode_ne hj.symm
  have hbit : ∀ b, (s.putDinode sb ROOTINO (fixed sb s)).bit sb b = s.bit sb b :=
    fun b ↦ Fs.State.bit_putDinode hroot
  have hholes : ∀ i x, (inodes files)[i]? = some x →
      NoHoles (own sb s.cache (s.dinode sb)) (i + 1) (blocksOf x.2.length) := by
    intro i x hx
    obtain ⟨hlt, hne, -⟩ := h.type_ne hx
    rw [← (h.files_eq hx).2]
    exact h.wf.noHoles (i + 1) hlt hne
  refine ⟨?_, fun b hb ↦ (hbit b).trans (h.wf.bits b hb), ?_, ?_, ?_, ?_, ?_⟩
  · refine Partition.congr h.wf.owned (fun b _ ↦ ?_) (fun y ↦ congrFun hown y)
    rw [hbit]
  · rw [hown]
    exact hholes
  · intro i x hx
    rw [← (h.inode i x hx).1]
    rcases eq_or_ne (i + 1) ROOTINO with hi | hi
    · rw [hi, hself]
      rfl
    · rw [hother _ hi]
  · intro i x hx
    rw [← (h.files_eq hx).2]
    rcases eq_or_ne (i + 1) ROOTINO with hi | hi
    · rw [hi, hself, sizeOf, if_pos (Nat.succ.inj hi)]
      rfl
    · rw [hother _ hi, sizeOf, if_neg (fun h0 ↦ hi (congrArg Nat.succ h0))]
  · intro i x hx
    refine Eq.trans (bytes_congr fun o _ ho ↦ ?_) (h.files_eq hx).1
    obtain ⟨b, hb⟩ := (hholes i x hx).exists_block (by omega : o < x.2.length)
    rw [byte_of_own hb, byte_of_own (hown ▸ hb),
      Fs.State.cache_putDinode hroot (h.wf.owned.mem _ _ hb).1]
  · intro i hi hout
    have hne : i ≠ ROOTINO := by
      unfold ROOTINO
      omega
    rw [hother i hne]
    exact h.unused i hi (by rwa [length_inodes])

theorem Made.congr (h : Made sb files s) (hv : v.cache = s.cache) : Made sb files v := by
  obtain ⟨cache, icache, logged⟩ := v
  subst hv
  obtain ⟨howned, hbits, hholes, htype, hsize, hbytes, hunused⟩ := h
  exact ⟨howned, hbits, hholes, htype, hsize, hbytes, hunused⟩

theorem Built.made (h : Built sb (inodes files) m s) (hlen : files.length ≤ NINODES - 2)
    (hv : v.cache = (s.putDinode sb ROOTINO (fixed sb s)).cache) : Made sb files v :=
  (h.made_put hlen).congr hv

namespace Made

/-- A valid slot of the inode cache is a copy of the inode on the disk. -/
structure Copy (sb : Superblock) (i : ℕ) (k : Fin NINODE) (v : Fs.State) : Prop where
  inum : (v.icache k).inum = i + 1
  dinode : (v.icache k).toDinode = v.dinode sb (i + 1)

theorem mem_eq (hk : Copy sb i k v) : v.mem sb k = v.dinode sb := by
  rw [Fs.State.mem, hk.inum, hk.dinode, update_eq_self]

theorem lt (hx : (inodes files)[i]? = some x) (hlen : files.length ≤ NINODES - 2) : i + 1 < NINODES := by
  have hi := (List.getElem?_eq_some_iff.mp hx).1
  rw [length_inodes] at hi
  unfold NINODES at hlen ⊢
  omega

theorem type_eq (hx : (inodes files)[i]? = some x) : x.1 = T_DIR ∨ x.1 = T_FILE := by
  have hmem := List.mem_of_getElem? hx
  rw [inodes, List.mem_cons, List.mem_map] at hmem
  rcases hmem with rfl | ⟨f, -, rfl⟩
  · exact .inl rfl
  · exact .inr rfl

theorem ready (h : Made sb files v) (hx : (inodes files)[i]? = some x) (hi : i + 1 < sb.ninodes)
    (hk : Copy sb i k v) : Fs.State.Ready sb k v ∧ (v.icache k).type ≠ T_DEV ∧
      NoHoles (v.places sb k) (v.icache k).inum (blocksOf x.2.length) := by
  have htype : (v.icache k).type = x.1 := by rw [hk.dinode, h.type i x hx]
  have hne : x.1 ≠ 0 ∧ x.1 ≠ T_DEV := by
    rcases type_eq hx with ht | ht <;> rw [ht] <;> decide
  refine ⟨⟨by rwa [hk.inum], by rw [htype]; exact hne.1, ?_, h.bits⟩, by rw [htype]; exact hne.2, ?_⟩
  · rw [mem_eq hk]
    exact h.owned
  · rw [Fs.State.places, mem_eq hk, hk.inum]
    exact h.holes i x hx

end Made

/-- The blocks of every inode are allocated up to its size, every block that an inode has lies in the
data area and belongs to it alone, the free map marks the metadata and these blocks and no others, and
a kernel that reads such an inode changes nothing. -/
structure WellFormedImage (sb : Superblock) (v : Fs.State) : Prop where
  allocated : ∀ i, i < sb.ninodes → (v.dinode sb i).type ≠ 0 →
    ∀ p, p < blocksOf (v.dinode sb i).size → addr v.cache (v.dinode sb i) p ≠ 0
  area : ∀ x b, own sb v.cache (v.dinode sb) x = some b → sb.datastart ≤ b ∧ b < sb.size
  once : ∀ x y b, own sb v.cache (v.dinode sb) x = some b → own sb v.cache (v.dinode sb) y = some b → x = y
  bitmap : ∀ b, b < sb.size →
    (v.bit sb b = true ↔ b < sb.datastart ∨ ∃ x, own sb v.cache (v.dinode sb) x = some b)
  quiet : ∀ (devsw : Devsw) (k : Fin NINODE) (off n : ℕ), off < 2 ^ 32 → n < 2 ^ 32 →
    (v.icache k).inum < sb.ninodes → (v.icache k).toDinode = v.dinode sb (v.icache k).inum →
    (v.icache k).type ≠ 0 → ∃ r, v.readi sb devsw k off n = .ok (r, v)

theorem Made.cases (h : Made sb files v) (hi : i < sb.ninodes) (ht : (v.dinode sb i).type ≠ 0) :
    ∃ j x, i = j + 1 ∧ (inodes files)[j]? = some x := by
  have hin : ¬ (i = 0 ∨ files.length + 1 < i) := fun hout ↦ ht (h.unused i hi hout)
  have hlt : i - 1 < (inodes files).length := by
    rw [length_inodes]
    omega
  exact ⟨i - 1, _, by omega, List.getElem?_eq_getElem hlt⟩

theorem blocksOf_sizeOf (hi : i = 0 → n % BSIZE ≠ 0) : blocksOf (sizeOf i n) = blocksOf n := by
  unfold sizeOf blocksOf
  split
  · rename_i h0
    have hn := hi h0
    unfold BSIZE at *
    omega
  · rfl

theorem Made.root_type (h : Made sb files v) : (v.dinode sb ROOTINO).type ≠ 0 := by
  rw [show ROOTINO = 0 + 1 from rfl, h.type 0 _ rfl]
  exact (by decide : T_DIR ≠ 0)

theorem Made.wellFormed (h : Made sb files v) (hmod : (files.length + 2) % (BSIZE / DIRENT) ≠ 0) :
    WellFormedImage sb v := by
  have hblocks : ∀ i x, (inodes files)[i]? = some x →
      blocksOf (v.dinode sb (i + 1)).size = blocksOf x.2.length := by
    intro i x hx
    rw [h.size i x hx]
    apply blocksOf_sizeOf
    rintro rfl
    obtain rfl : (T_DIR, rootBytes files) = x := Option.some.inj hx
    rw [length_rootBytes]
    unfold BSIZE DIRENT at *
    omega
  refine ⟨fun i hi ht p hp ↦ ?_, fun x b hx ↦ h.owned.mem x b hx, h.owned.inj, fun b hb ↦ ?_, ?_⟩
  · obtain ⟨j, x, rfl, hx⟩ := h.cases hi ht
    rw [hblocks j x hx] at hp
    have hholes := h.holes j x hx
    obtain ⟨b, hb⟩ := Option.ne_none_iff_exists'.mp ((hholes.block p (hp.trans_le hholes.le)).mpr hp)
    obtain ⟨-, -, -, ha, hne⟩ := own_eq_some.mp hb
    rwa [ha]
  · rcases Nat.lt_or_ge b sb.datastart with hlo | hlo
    · exact iff_of_true (h.bits b hlo) (.inl hlo)
    · have hfree := h.owned.free_iff b ⟨hlo, hb⟩
      rw [← Bool.not_eq_false, hfree]
      simp [hlo]
  · intro devsw k off n hoff hn hi hcopy ht
    rw [hcopy] at ht
    obtain ⟨j, x, hj, hx⟩ := h.cases hi ht
    have hk : Made.Copy sb j k v := ⟨hj, by rw [hcopy, hj]⟩
    obtain ⟨hready, hdev, hholes⟩ := h.ready hx (hj ▸ hi) hk
    rw [hready.readi_eq hholes hdev hoff hn]
    · exact ⟨_, rfl⟩
    · rw [← hblocks j x hx, hk.dinode]
      exact (min_le_right _ _).trans (le_blocksOf _)

/-- The kernel looks a file up in the root directory in slot `k`, and the inode that it finds has the
size and the bytes of the file. This fails only if all slots of the inode cache are in use, and it waits
only for a process that holds the lock of the inode. -/
def Finds (sb : Superblock) (devsw : Devsw) (k : Fin NINODE) (v : Fs.State) (f : HostFile) : Prop :=
  Ensures (fun r ↦ ∃ k' off, r.1 = some (k', off) ∧
      Ensures (fun v' ↦ (v'.icache k').size = f.bytes.length ∧
          v'.readi sb devsw k' 0 f.bytes.length = .ok (some f.bytes, v'))
        (fun e ↦ e = .sleeps ∧ (r.2.icache k').locked = true) (r.2.ilock sb k'))
    (fun e ↦ e = .igetNoInodes ∧ ∀ k, 0 < (v.icache k).ref) (v.dirlookup sb devsw k f.target)

def entries (files : List HostFile) : List (ℕ × List UInt8) :=
  (ROOTINO, [46]) :: (ROOTINO, [46, 46]) :: files.mapIdx fun j f ↦ (j + 2, f.target)

theorem rootBytes_eq : rootBytes files = (entries files).flatMap fun e ↦ dirent e.1 e.2 := by
  have hmap : (files.mapIdx fun j f ↦ dirent (j + 2) f.target) =
      (files.mapIdx fun j f ↦ (j + 2, f.target)).map fun e ↦ dirent e.1 e.2 := by
    apply List.ext_getElem <;> simp
  rw [rootBytes, hmap, entries, List.flatMap_cons, List.flatMap_cons, List.flatMap_def, List.append_assoc]

theorem length_entries : (entries files).length = files.length + 2 := by simp [entries]

namespace Made

section

variable (h : Made sb files v) (hn : 1 < sb.ninodes) (hk : Copy sb 0 k v)
include h hk

theorem root_size_eq : (v.icache k).size = (DIRENT * (files.length + 2) / BSIZE + 1) * BSIZE := by
  rw [hk.dinode, h.size 0 _ rfl, sizeOf, if_pos rfl, length_rootBytes]

variable (hlen : files.length ≤ NINODES - 2)
include hn hlen

theorem readi_entry {e : ℕ} (he : e < (entries files).length) :
    v.readi sb devsw k (DIRENT * e) DIRENT =
      .ok (some (dirent (entries files)[e].1 (entries files)[e].2), v) := by
  have hroot : (inodes files)[0]? = some (T_DIR, rootBytes files) := rfl
  obtain ⟨hready, hdev, hholes⟩ := h.ready hroot hn hk
  have hle : DIRENT * e + DIRENT ≤ DIRENT * (files.length + 2) := by
    rw [length_entries] at he
    exact Nat.mul_le_mul_left DIRENT he
  have hbig : DIRENT * (files.length + 2) ≤ (v.icache k).size ∧ DIRENT * (files.length + 2) < 2 ^ 32 := by
    rw [h.root_size_eq hk]
    unfold NINODES at hlen
    unfold DIRENT BSIZE
    omega
  have hdirent : DIRENT < 2 ^ 32 := by decide
  have hblocks := le_blocksOf (rootBytes files).length
  rw [length_rootBytes] at hblocks
  rw [hready.readi_eq hholes hdev (by omega) hdirent ((min_le_left _ _).trans (by
    rw [length_rootBytes]
    omega)), if_pos (by omega), take_drop_contents (by omega)]
  have hbytes := h.bytes 0 _ hroot
  dsimp only at hbytes
  rw [length_rootBytes] at hbytes
  rw [hk.dinode, ← take_drop_bytes hle, hbytes, rootBytes_eq,
    take_drop_flatMap (fun e ↦ length_dirent e.1 e.2) _ he]

theorem dirlookupLoop_skip {name : List UInt8} (l offs : List ℕ)
    (hskip : ∀ e ∈ l, ∃ he : e < (entries files).length, key name ≠ key (entries files)[e].2) :
    v.dirlookupLoop sb devsw k name (l.map (DIRENT * ·) ++ offs) =
      v.dirlookupLoop sb devsw k name offs := by
  induction l with
  | nil => rfl
  | cons e l ih =>
    obtain ⟨he, hne⟩ := hskip e (.head _)
    rw [List.map_cons, List.cons_append, dirlookupLoop_cons _ (h.readi_entry hn hk hlen he)
      (length_dirent ..), deName_dirent, key_strncpy, if_neg (fun hand ↦ hne hand.2)]
    exact ih fun e' he' ↦ hskip e' (.tail _ he')

theorem dirlookup_eq {j : ℕ} (hnames : ((entries files).map fun e ↦ key e.2).Nodup)
    (hj : files[j]? = some f) :
    v.dirlookup sb devsw k f.target =
      v.iget (j + 2) >>= fun r ↦ .ok (some (r.1, DIRENT * (j + 2)), r.2) := by
  obtain ⟨hlt, rfl⟩ := List.getElem?_eq_some_iff.mp hj
  have htype : (v.icache k).type = T_DIR := by rw [hk.dinode, h.type 0 _ rfl]
  have he : j + 2 < (entries files).length := by
    rw [length_entries]
    omega
  have hentry : (entries files)[j + 2] = (j + 2, files[j].target) := by simp [entries]
  obtain ⟨c, hc⟩ : ∃ c, rounds (v.icache k).size = (j + 2) + (c + 1) := by
    refine ⟨rounds (v.icache k).size - (j + 3), ?_⟩
    rw [h.root_size_eq hk]
    unfold rounds DIRENT BSIZE
    omega
  have hskip : ∀ e ∈ List.range (j + 2), ∃ he : e < (entries files).length,
      key files[j].target ≠ key (entries files)[e].2 := by
    intro e hmem
    have hej := List.mem_range.mp hmem
    refine ⟨hej.trans he, fun heq ↦ ?_⟩
    have he₁ : e < ((entries files).map fun e ↦ key e.2).length := by
      rw [List.length_map]
      omega
    have he₂ : j + 2 < ((entries files).map fun e ↦ key e.2).length := by rwa [List.length_map]
    have hsame : ((entries files).map fun e ↦ key e.2)[e] =
        ((entries files).map fun e ↦ key e.2)[j + 2] := by
      rw [List.getElem_map, List.getElem_map, hentry, ← heq]
    exact hej.ne (hnames.getElem_inj_iff.mp hsame)
  rw [Fs.State.dirlookup, if_neg (not_not.mpr htype), offsets, hc, List.range_add, List.map_append,
    h.dirlookupLoop_skip hn hk hlen _ _ hskip, List.range_succ_eq_map, List.map_cons, List.map_cons,
    Nat.add_zero, dirlookupLoop_cons _ (h.readi_entry hn hk hlen he) (length_dirent ..), hentry,
    deName_dirent, key_strncpy, deInum_dirent, Nat.mod_eq_of_lt]
  · rw [if_pos ⟨Nat.succ_ne_zero _, rfl⟩]
  · unfold NINODES at hlen
    omega

end

theorem readi_file {j : ℕ} (h : Made sb files v) (hn : sb.ninodes = NINODES)
    (hlen : files.length ≤ NINODES - 2) (hmax : f.bytes.length ≤ MAXFILE * BSIZE)
    (hj : files[j]? = some f) (hk : Copy sb (j + 1) k v) :
    (v.icache k).size = f.bytes.length ∧
      v.readi sb devsw k 0 f.bytes.length = .ok (some f.bytes, v) := by
  have hx : (inodes files)[j + 1]? = some (T_FILE, f.bytes) := by simp [inodes, hj]
  have hlim : MAXFILE * BSIZE < 2 ^ 32 := by decide
  obtain ⟨hready, hdev, hholes⟩ := h.ready hx (hn ▸ lt hx hlen) hk
  have hsize : (v.icache k).size = f.bytes.length := by
    rw [hk.dinode, h.size _ _ hx, sizeOf, if_neg (Nat.succ_ne_zero j)]
  refine ⟨hsize, ?_⟩
  rw [hready.readi_eq hholes hdev (by omega) (by omega) ((min_le_right _ _).trans (hsize ▸ le_blocksOf _)),
    if_pos (by omega), take_drop_contents (by omega), hk.dinode]
  exact congrArg (fun l ↦ Except.ok (some l, v)) (h.bytes _ _ hx)

theorem finds (h : Made sb files v) (hn : sb.ninodes = NINODES) (hlen : files.length ≤ NINODES - 2)
    (hmax : f.bytes.length ≤ MAXFILE * BSIZE) (hnames : ((entries files).map fun e ↦ key e.2).Nodup)
    (hslots : Slots sb v.icache (v.dinode sb)) (hr : 0 < (v.icache k).ref)
    (hv : (v.icache k).valid = true) (hroot : (v.icache k).inum = ROOTINO) (hf : f ∈ files) :
    Finds sb devsw k v f := by
  obtain ⟨j, hj⟩ := List.getElem?_of_mem hf
  have hone : 1 < sb.ninodes := by
    rw [hn]
    decide
  have hx : (inodes files)[j + 1]? = some (T_FILE, f.bytes) := by simp [inodes, hj]
  have hk : Copy sb 0 k v := ⟨hroot, by rw [(hslots.cached k hr hv).1, hroot]; rfl⟩
  rw [Finds, h.dirlookup_eq hone hk hlen hnames hj]
  apply iget_ensures.bind
  rintro ⟨k', v₁⟩ hg
  refine ⟨k', DIRENT * (j + 2), rfl, ?_⟩
  have hdinode : v₁.dinode sb = v.dinode sb := by
    unfold Fs.State.dinode
    rw [hg.cache]
  have href : ¬ (v₁.icache k').ref < 1 := by
    rcases hg.self with ⟨-, -, he⟩ | ⟨-, -, he⟩ <;> rw [he] <;> simp
  have hinum : (v₁.icache k').inum = j + 1 + 1 := by
    rcases hg.self with ⟨-, hi, he⟩ | ⟨-, -, he⟩ <;> rw [he]
    exact hi
  have hlocked : ∀ ip : Inode, ip.inum = j + 1 + 1 → ip.toDinode = v.dinode sb (j + 1 + 1) →
      ((v₁.setInode k' ip).icache k').size = f.bytes.length ∧
        (v₁.setInode k' ip).readi sb devsw k' 0 f.bytes.length = .ok (some f.bytes, v₁.setInode k' ip) := by
    intro ip hip hcopy
    have h₁ : Made sb files (v₁.setInode k' ip) := h.congr hg.cache
    apply h₁.readi_file hn hlen hmax hj
    refine ⟨?_, ?_⟩ <;> rw [Fs.State.setInode_icache_self]
    · exact hip
    · rw [hcopy, Fs.State.setInode_dinode, hdinode]
  unfold Fs.State.ilock
  rw [if_neg href]
  split
  · exact ⟨rfl, ‹_›⟩
  split
  · rename_i hvalid
    apply hlocked
    · exact hinum
    · rcases hg.self with ⟨hpos, hi, he⟩ | ⟨-, -, he⟩
      · rw [he] at hvalid ⊢
        exact (hslots.cached k' hpos hvalid).1.trans (by rw [hi])
      · rw [he] at hvalid
        cases hvalid
  · rw [hinum, hdinode]
    dsimp only
    rw [if_neg]
    · exact hlocked _ hinum rfl
    · rw [h.type _ _ hx]
      exact (by decide : T_FILE ≠ 0)

end Made

def readsb (b : Block) : List ℕ := (List.range 7).map (word b)

theorem readsb_superBlock : readsb (superBlock superblock) = fields superblock := by decide +kernel

theorem Built.super (h : Built sb (inodes files) m s) :
    (s.putDinode sb ROOTINO (fixed sb s)).cache 1 = superBlock sb := by
  obtain ⟨hone, -, -⟩ := h.sim.iblock_lt (h.type_ne (i := 0) rfl).1
  have hmap := h.sim.area.1
  rw [Fs.State.putDinode, Fs.State.logWrite_cache, if_neg, h.sim.img 1 (by omega), h.sim.super]
  exact hone.ne

theorem build_made (h : IsLayout sb) (hlen : files.length ≤ NINODES - 2)
    (hsize : ∀ f ∈ files, f.bytes.length ≤ MAXFILE * BSIZE) (hfit : blocks files ≤ FSSIZE) :
    (build sb files = .error .slash ∧ ∃ f ∈ files, 47 ∈ f.name) ∨
      ∃ img, build sb files = .ok img ∧ img 1 = superBlock sb ∧
        ∀ v : Fs.State, v.cache = img → Made sb files v := by
  generalize hx : build sb files = x
  have hbuild := build_ensures h hlen hsize hfit hx
  cases x with
  | error e =>
    obtain ⟨rfl, hslash⟩ := hbuild
    exact .inl ⟨rfl, hslash⟩
  | ok img =>
    obtain ⟨m, s, hbuilt, rfl⟩ := hbuild
    exact .inr ⟨_, rfl, hbuilt.super, fun v hv ↦ hbuilt.made hlen hv⟩

/-- The kernel reads every file that `mkfs` has put into the image, whatever the chunks in which the
host has read it. -/
theorem mkfs_agrees_with_kernel (hlen : files.length ≤ NINODES - 2)
    (hsize : ∀ f ∈ files, f.bytes.length ≤ MAXFILE * BSIZE) (hfit : blocks files ≤ FSSIZE)
    (hnames : (([46] :: [46, 46] :: files.map HostFile.target).map key).Nodup) :
    (main files = .error .slash ∧ ∃ f ∈ files, 47 ∈ f.name) ∨
      ∃ img, main files = .ok img ∧ readsb (img 1) = fields superblock ∧
        ∀ (devsw : Devsw) (v : Fs.State) (k : Fin NINODE), v.cache = img →
          Slots superblock v.icache (v.dinode superblock) → 0 < (v.icache k).ref →
          (v.icache k).valid = true → (v.icache k).inum = ROOTINO →
          ∀ f ∈ files, Finds superblock devsw k v f := by
  have hkeys : ((entries files).map fun e ↦ key e.2) =
      ([46] :: [46, 46] :: files.map HostFile.target).map key := by
    simp only [entries, List.map_cons, List.cons.injEq, true_and]
    apply List.ext_getElem <;> simp
  rcases build_made superblock_isLayout hlen hsize hfit with herr | ⟨img, hbuild, hsuper, hmade⟩
  · exact .inl herr
  refine .inr ⟨img, hbuild, by rw [hsuper, readsb_superBlock], ?_⟩
  intro devsw v k hv hslots hr hvalid hroot f hf
  exact (hmade v hv).finds superblock_isLayout.ninodes hlen (hsize f hf) (hkeys ▸ hnames) hslots hr hvalid
    hroot hf

def hostFile : HostFile := ⟨[95, 97], [[1, 2], [3]], by decide, by decide⟩

/-- A kernel that has the root directory in the first slot of the inode cache. -/
def rootCached (img : Image) : Fs.State :=
  let v : Fs.State := ⟨img, fun _ ↦ ⟨⟨0, 0, 0, 0, 0, fun _ ↦ 0⟩, 0, 0, false, false⟩, []⟩
  v.setInode ⟨0, NINODE_pos⟩ ⟨v.dinode superblock ROOTINO, ROOTINO, 1, false, true⟩

theorem mkfs_agrees_with_kernel_file :
    ∃ img k' off v₁ v₂, main [hostFile] = .ok img ∧ readsb (img 1) = fields superblock ∧
      (rootCached img).dirlookup superblock noDevice ⟨0, NINODE_pos⟩ [97] = .ok (some (k', off), v₁) ∧
      v₁.ilock superblock k' = .ok v₂ ∧
      v₂.readi superblock noDevice k' 0 3 = .ok (some [1, 2, 3], v₂) := by
  have hlen : [hostFile].length ≤ NINODES - 2 := by decide
  have hslash : ¬ ∃ f ∈ [hostFile], 47 ∈ f.name := by decide
  obtain ⟨img, hmain, -, hmade⟩ := (build_made superblock_isLayout hlen (by decide)
    (by decide +kernel)).resolve_left fun herr ↦ hslash herr.2
  obtain ⟨img', hmain', hsuper, hfinds⟩ := (mkfs_agrees_with_kernel hlen (by decide)
    (by decide +kernel) (by decide)).resolve_left fun herr ↦ hslash herr.2
  obtain rfl : img = img' := Except.ok.inj (hmain.symm.trans hmain')
  have htype := (hmade (rootCached img) rfl).root_type
  have hslots : Slots superblock (rootCached img).icache ((rootCached img).dinode superblock) :=
    Slots.set ⟨nofun, nofun, nofun⟩ (fun _ ↦ (by decide : ROOTINO < superblock.ninodes)) (fun _ _ ↦ ⟨rfl, htype⟩) (fun _ _ _ ↦ nofun)
  have hfind := hfinds noDevice (rootCached img) ⟨0, NINODE_pos⟩ rfl hslots Nat.one_pos rfl rfl hostFile
    (List.mem_singleton_self _)
  have hdir : (rootCached img).dirlookup superblock noDevice ⟨0, NINODE_pos⟩ [97] = _ :=
    (hmade (rootCached img) rfl).dirlookup_eq (j := 0) (by decide) ⟨rfl, rfl⟩ hlen (by decide) rfl
  have hget : (rootCached img).iget 2 = .ok (⟨1, by decide⟩, _) := rfl
  rw [hget, ok_bind] at hdir
  obtain ⟨_, _, hfound, hlock⟩ := hfind.of_ok hdir
  cases hfound
  obtain ⟨v₂, hv₂, -, hread⟩ := (hlock.weaken fun e he ↦ by cases he.2).exists_ok
  exact ⟨img, _, _, _, v₂, hmain, hsuper, hdir, hv₂, hread⟩

theorem Made.root_hole (h : Made sb files v) (hn : 1 < sb.ninodes)
    (hfull : (files.length + 2) % (BSIZE / DIRENT) = 0) {q : ℕ}
    (hq : q = (files.length + 2) / (BSIZE / DIRENT)) (hdirect : q < NDIRECT) :
    q < blocksOf (v.dinode sb ROOTINO).size ∧
      (v.dinode sb ROOTINO).addrs ⟨q, Nat.lt_succ_of_lt hdirect⟩ = 0 := by
  have hroot : (inodes files)[0]? = some (T_DIR, rootBytes files) := rfl
  have hmax : q < MAXFILE := hdirect.trans (by decide)
  have hblocks : blocksOf (rootBytes files).length = q := by
    rw [length_rootBytes, hq]
    unfold blocksOf BSIZE DIRENT at *
    omega
  constructor
  · rw [show ROOTINO = 0 + 1 from rfl, h.size 0 _ hroot, sizeOf, if_pos rfl, length_rootBytes, hq]
    unfold blocksOf BSIZE DIRENT at *
    omega
  · have hnone : own sb v.cache (v.dinode sb) (0 + 1, q) = none := by
      by_contra hsome
      have hlt := ((h.holes 0 _ hroot).block q hmax).mp hsome
      rw [hblocks] at hlt
      exact lt_irrefl q hlt
    by_contra hne
    have haddr : addr v.cache (v.dinode sb (0 + 1)) q ≠ 0 := by
      rw [addr, dif_pos hdirect]
      exact hne
    rw [own, if_pos ⟨hn, h.root_type, hmax.le, haddr⟩] at hnone
    cases hnone

/-- The image is well formed unless the entries of the root directory fill its last block. -/
theorem mkfs_image_wellFormed (hlen : files.length ≤ NINODES - 2)
    (hsize : ∀ f ∈ files, f.bytes.length ≤ MAXFILE * BSIZE) (hfit : blocks files ≤ FSSIZE) :
    (main files = .error .slash ∧ ∃ f ∈ files, 47 ∈ f.name) ∨
      ∃ img, main files = .ok img ∧ ∀ v : Fs.State, v.cache = img →
        (WellFormedImage superblock v ↔ (files.length + 2) % (BSIZE / DIRENT) ≠ 0) := by
  have hdirect : (files.length + 2) / (BSIZE / DIRENT) < NDIRECT := by
    unfold NINODES at hlen
    unfold BSIZE DIRENT NDIRECT
    omega
  rcases build_made superblock_isLayout hlen hsize hfit with herr | ⟨img, hbuild, -, hmade⟩
  · exact .inl herr
  refine .inr ⟨img, hbuild, fun v hv ↦ ⟨fun hwf hfull ↦ ?_, (hmade v hv).wellFormed⟩⟩
  obtain ⟨hlt, hzero⟩ := (hmade v hv).root_hole (by decide) hfull rfl hdirect
  refine hwf.allocated ROOTINO (by decide) (hmade v hv).root_type _ hlt ?_
  rw [addr, dif_pos hdirect, hzero]

theorem mkfs_image_wellFormed_file :
    ∃ img, main [hostFile] = .ok img ∧ ∀ v : Fs.State, v.cache = img → WellFormedImage superblock v := by
  have hlen : [hostFile].length ≤ NINODES - 2 := by decide
  obtain ⟨img, hmain, hwf⟩ := (mkfs_image_wellFormed hlen (by decide) (by decide +kernel)).resolve_left
    fun herr ↦ absurd herr.2 (by decide)
  exact ⟨img, hmain, fun v hv ↦ (hwf v hv).mpr (by decide)⟩

theorem readi_hole {q : ℕ} (hdirect : q < NDIRECT) (ht : (v.icache k).type ≠ T_DEV)
    (hsize : q * BSIZE < (v.icache k).size) (hlt : (v.icache k).size < 2 ^ 31)
    (haddr : (v.icache k).addrs ⟨q, Nat.lt_succ_of_lt hdirect⟩ = 0) (r : Option (List UInt8)) :
    v.readi sb devsw k (q * BSIZE) 1 ≠ .ok (r, v) := by
  have hmod : (q * BSIZE + 1) % 2 ^ 32 = q * BSIZE + 1 := Nat.mod_eq_of_lt (by omega)
  have hdiv : q * BSIZE / BSIZE = q := Nat.mul_div_cancel q BSIZE_pos
  intro hread
  rw [Fs.State.readi] at hread
  dsimp only at hread
  rw [if_neg ht, hmod, if_neg (by omega), if_neg (by omega)] at hread
  obtain ⟨⟨bytes, v₁⟩, hloop, hlast⟩ := bind_eq_ok.mp hread
  obtain ⟨-, rfl⟩ : some bytes = r ∧ v₁ = v := by simpa using hlast
  rw [Fs.State.readLoop, if_neg Nat.one_ne_zero, hdiv, Fs.State.bmap, dif_pos hdirect] at hloop
  dsimp only at hloop
  rw [if_pos haddr] at hloop
  obtain ⟨⟨b, v₂⟩, hbmap, hrest⟩ := bind_eq_ok.mp hloop
  obtain ⟨⟨b', v₃⟩, hballoc, hset⟩ := bind_eq_ok.mp hbmap
  obtain ⟨-, rfl⟩ : b' = b ∧ _ = v₂ := by simpa using hset
  obtain ⟨-, hsame⟩ : _ ∧ v₃.setAddr k ⟨q, Nat.lt_succ_of_lt hdirect⟩ b' = v₁ := by
    simpa [Fs.State.readLoop] using hrest
  have hlogged : (v₃.setAddr k ⟨q, Nat.lt_succ_of_lt hdirect⟩ b').logged = v₁.logged :=
    congrArg Fs.State.logged hsame
  rw [Fs.State.balloc] at hballoc
  split at hballoc
  · obtain ⟨-, rfl⟩ : _ ∧ _ = v₃ := by simpa using hballoc
    have hlength : v₁.logged.length + 1 + 1 = v₁.logged.length := congrArg List.length hlogged
    omega
  · cases hballoc

def emptyFiles (n : ℕ) : List HostFile := List.replicate n ⟨[97], [], by decide, by decide⟩

/-- With 30 files the root directory has 32 entries, which fill one block. Its size is two blocks, it has
no second block, and a kernel that reads there allocates one. -/
theorem mkfs_root_hole : ∃ img, main (emptyFiles 30) = .ok img ∧ ∀ v : Fs.State, v.cache = img →
    1 < blocksOf (v.dinode superblock ROOTINO).size ∧
      addr v.cache (v.dinode superblock ROOTINO) 1 = 0 ∧
      ∀ (devsw : Devsw) (k : Fin NINODE) (r : Option (List UInt8)),
        (v.icache k).toDinode = v.dinode superblock ROOTINO →
        v.readi superblock devsw k BSIZE 1 ≠ .ok (r, v) := by
  have hlen : (emptyFiles 30).length ≤ NINODES - 2 := by decide
  have hroot : (inodes (emptyFiles 30))[0]? = some (T_DIR, rootBytes (emptyFiles 30)) := rfl
  rcases build_made superblock_isLayout hlen (by decide) (by decide +kernel) with
    herr | ⟨img, hbuild, -, hmade⟩
  · exact absurd herr.2 (by decide)
  refine ⟨img, hbuild, fun v hv ↦ ?_⟩
  have hv := hmade v hv
  have hdirect : 1 < NDIRECT := by decide
  have hsize : (v.dinode superblock (0 + 1)).size = 1024 := by
    rw [hv.size 0 _ hroot]
    decide +kernel
  obtain ⟨hblocks, hzero⟩ := hv.root_hole (by decide) (by decide) (by decide) hdirect
  refine ⟨hblocks, ?_, fun devsw k r hcopy ↦ ?_⟩
  · rw [addr, dif_pos hdirect]
    exact hzero
  · refine readi_hole hdirect ?_ ?_ ?_ ?_ r
    · rw [hcopy, show ROOTINO = 0 + 1 from rfl, hv.type 0 _ hroot]
      exact (by decide : T_DIR ≠ T_DEV)
    · rw [hcopy]
      exact lt_of_lt_of_eq (by decide) hsize.symm
    · rw [hcopy]
      exact lt_of_eq_of_lt hsize (by decide)
    · rw [hcopy]
      exact hzero

end Xv6Bfs.Mkfs
