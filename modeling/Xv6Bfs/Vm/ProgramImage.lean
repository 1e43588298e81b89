import Xv6Bfs.Vm.Arguments

namespace Xv6Bfs.Vm

open Lib.Execution Lib.Bytes

/-- A file that is not a device, by its contents. The `-1` of `readi` is the empty list here: `exec`
never asks for 0 bytes, and compares the result with the number that it asked for. -/
def Inode.ofFile (l : List UInt8) : Inode where
  readi off n := if off ≤ l.length ∧ off + n < 2 ^ 32 then (l.drop off).take n else []
  readi_le off n := by
    split
    · exact List.length_take_le _ _
    · exact Nat.zero_le n

/-- The byte that the program headers ask for at an address: that of the last segment, or 0. -/
def fileByte (l : List UInt8) (hs : List Proghdr) (a : ℕ) : Option UInt8 :=
  match covering hs a with
  | some h => l[h.off + (a - h.vaddr)]?
  | none => some 0

variable {M : Machine} {pgdir : Pgdir} {m m₀ m' m'' : Mem} {a data sz : ℕ} {ip : Inode} {h : Proghdr}
  {hs : List Proghdr} {l : List UInt8}

section

variable {off n k i : ℕ}

theorem ofFile_readi_full (hn : 0 < n) (hfull : ((Inode.ofFile l).readi off n).length = n) :
    off + n ≤ l.length ∧ (Inode.ofFile l).readi off n = (l.drop off).take n := by
  simp only [Inode.ofFile] at hfull ⊢
  split at hfull
  · rename_i hok
    rw [List.length_take, List.length_drop] at hfull
    exact ⟨by omega, if_pos hok⟩
  · exact absurd hfull (by simp only [List.length_nil]; omega)

theorem headers_off_lt (hmem : h ∈ ip.headers n off) : h.off < 2 ^ 32 := by
  induction n generalizing off with
  | zero => cases hmem
  | succ n ih =>
    rw [Inode.headers] at hmem
    rcases List.mem_cons.mp hmem with rfl | hmem
    · exact field_lt _ 4 4
    · exact ih hmem

theorem segmentPage_ofFile (hlen : l.length < 2 ^ 32) (hoff : h.off < 2 ^ 32)
    (hc : (Inode.ofFile l).Complete h) (hk : k * PGSIZE < h.filesz) :
    h.off + k * PGSIZE + min (h.filesz - k * PGSIZE) PGSIZE ≤ l.length ∧
      (Inode.ofFile l).segmentPage h k =
        (l.drop (h.off + k * PGSIZE)).take (min (h.filesz - k * PGSIZE) PGSIZE) := by
  have hsize : 0 < PGSIZE := by decide
  have hread (j : ℕ) (hj : j * PGSIZE < h.filesz) (hlt : h.off + j * PGSIZE < 2 ^ 32) :
      h.off + j * PGSIZE + min (h.filesz - j * PGSIZE) PGSIZE ≤ l.length ∧
        (Inode.ofFile l).segmentPage h j =
          (l.drop (h.off + j * PGSIZE)).take (min (h.filesz - j * PGSIZE) PGSIZE) := by
    have hfull := hc j hj
    rw [Inode.segmentPage, Nat.mod_eq_of_lt hlt] at hfull ⊢
    have hpos : 0 < min (h.filesz - j * PGSIZE) PGSIZE := by omega
    exact ofFile_readi_full hpos hfull
  refine hread k hk ?_
  induction k with
  | zero =>
    rw [Nat.zero_mul, Nat.add_zero]
    exact hoff
  | succ k ih =>
    rw [Nat.add_one_mul] at hk ⊢
    have hprev := (hread k (by omega) (ih (by omega))).1
    omega

theorem segmentByte_ofFile (hlen : l.length < 2 ^ 32) (hoff : h.off < 2 ^ 32)
    (hc : (Inode.ofFile l).Complete h) (hi : i < h.filesz) :
    l[h.off + i]? = some ((Inode.ofFile l).segmentByte h i) := by
  have hsplit := Nat.div_add_mod' i PGSIZE
  have hmod := Nat.mod_lt i (show 0 < PGSIZE by decide)
  obtain ⟨hle, hpage⟩ := segmentPage_ofFile hlen hoff hc (show i / PGSIZE * PGSIZE < h.filesz by omega)
  have hlt : i % PGSIZE < min (h.filesz - i / PGSIZE * PGSIZE) PGSIZE := by omega
  rw [Inode.segmentByte, hpage, List.getD_eq_getElem?_getD, List.getElem?_take_of_lt hlt,
    List.getElem?_drop, Nat.add_assoc, hsplit, List.getElem?_eq_getElem (by omega), Option.getD_some]

end

theorem imageByte_ofFile (hlen : l.length < 2 ^ 32) (hoff : ∀ h ∈ hs, h.off < 2 ^ 32)
    (hc : ∀ h ∈ hs, h.type = ELF_PROG_LOAD → (Inode.ofFile l).Complete h) :
    some ((Inode.ofFile l).imageByte hs a) = fileByte l hs a := by
  rw [Inode.imageByte, fileByte]
  cases hcov : covering hs a with
  | none => rfl
  | some h =>
    obtain ⟨hmem, htype, hle, hlt⟩ := covering_mem hcov
    exact (segmentByte_ofFile hlen (hoff h hmem) (hc h hmem htype) (by omega)).symm

section

variable {N n off newsz : ℕ}

def Inode.HasHeaders (ip : Inode) : (n off : ℕ) → Prop
  | 0, _ => True
  | n + 1, off => (ip.readi off sizeofProghdr).length = sizeofProghdr ∧
    ip.HasHeaders n ((off + sizeofProghdr) % 2 ^ 32)

instance Inode.decidableHasHeaders (ip : Inode) : (n off : ℕ) → Decidable (ip.HasHeaders n off)
  | 0, _ => inferInstanceAs (Decidable True)
  | n + 1, off => @instDecidableAnd _ _ _ (ip.decidableHasHeaders n ((off + sizeofProghdr) % 2 ^ 32))

structure Proghdr.Fits (ip : Inode) (N : ℕ) (h : Proghdr) : Prop where
  filesz_le : h.filesz ≤ h.memsz
  pos : 0 < h.vaddr + h.memsz
  within : h.vaddr + h.memsz ≤ N
  aligned : h.vaddr % PGSIZE = 0
  complete : ip.Complete h

theorem loaduvm_complete (hle : h.filesz ≤ KERNBASE) (hc : ip.Complete h) :
    Ensures (fun r ↦ r.1 = true) (fun _ ↦ True) (pgdir.loaduvm h.vaddr ip h.off h.filesz m) := by
  have hloop (fuel k : ℕ) (m : Mem) : Ensures (fun r ↦ r.1 = true) (fun _ ↦ True)
      (pgdir.loadLoop h.vaddr ip h.off h.filesz fuel (k * PGSIZE) m) := by
    induction fuel generalizing k m with
    | zero => trivial
    | succ fuel ih =>
      rw [Pgdir.loadLoop]
      by_cases hlt : k * PGSIZE < h.filesz
      swap
      · rw [if_neg hlt]
        rfl
      rw [if_pos hlt]
      split
      · trivial
      have hnext : (k * PGSIZE + PGSIZE) % 2 ^ 32 = (k + 1) * PGSIZE := by
        simp only [PGSIZE, KERNBASE] at hlt hle ⊢
        omega
      have hmin : (if h.filesz - k * PGSIZE < PGSIZE then h.filesz - k * PGSIZE else PGSIZE) =
          min (h.filesz - k * PGSIZE) PGSIZE := by
        split <;> omega
      have hfull := hc k hlt
      rw [Inode.segmentPage] at hfull
      dsimp only
      rw [hmin, if_neg (not_not.mpr hfull), hnext]
      exact ih (k + 1) _
  rw [Pgdir.loaduvm]
  split
  · trivial
  · rw [← Nat.zero_mul PGSIZE]
    exact hloop _ 0 m

variable (hnd : m₀.freelist.Nodup) (hl : Linked data)
include hnd hl

theorem Built.allocuvm_enough (hb : Built M data m₀ ip hs sz pgdir m) (hN : newsz < KERNBASE)
    (hpos : 0 < newsz) (hplenty : ¬ Short M m (2 * (pages newsz - pages sz))) :
    Ensures (fun r ↦ r.1 = max sz newsz ∧ Built M data m₀ ip hs r.1 r.2.1 r.2.2 ∧
        m.freelist.length ≤ r.2.2.freelist.length + 2 * (pages r.1 - pages sz))
      (fun _ ↦ False) (pgdir.allocuvm M sz newsz m) := by
  by_cases hle : sz ≤ newsz
  swap
  · rw [Pgdir.allocuvm, if_neg (by omega), if_pos (by omega)]
    exact ⟨by dsimp only; omega, hb, Nat.le_add_right _ _⟩
  refine (((hb.allocuvm hnd hl).and (Pgdir.allocuvm_ensures hN hb.free
    (hb.toLoaded.unmapped hl hN) hle)).weaken (fun _ h ↦ h.1)).mono ?_
  rintro ⟨r, pgdir', m'⟩ ⟨⟨-, hr⟩, ⟨rfl, hg⟩ | ⟨-, -, hs⟩⟩
  · obtain ⟨hb', -⟩ := hr.resolve_left (by dsimp only; omega)
    exact ⟨by dsimp only; omega, hb', hg.draws.count⟩
  · exact absurd hs hplenty

theorem Built.loadSegments_enough (hN : N < KERNBASE) (hb : Built M data m₀ ip hs sz pgdir m)
    (hheaders : ip.HasHeaders n off)
    (hfit : ∀ h ∈ ip.headers n off, h.type = ELF_PROG_LOAD → h.Fits ip N) (hsz : sz ≤ N)
    (hplenty : ¬ Short M m (2 * (pages N - pages sz))) :
    Ensures (fun r ↦ ∃ sz', r.1 = some sz' ∧ sz ≤ sz' ∧ sz' ≤ N ∧
        (∀ h ∈ ip.headers n off, h.type = ELF_PROG_LOAD → h.vaddr + h.memsz ≤ sz') ∧
        m.freelist.length ≤ r.2.2.freelist.length + 2 * (pages sz' - pages sz))
      (fun _ ↦ False) (Vm.loadSegments M ip n off sz pgdir m) := by
  induction n generalizing off sz pgdir m hs with
  | zero =>
    refine ⟨sz, rfl, Nat.le_refl sz, hsz, fun h hh ↦ ?_, Nat.le_add_right _ _⟩
    cases hh
  | succ n ih =>
    obtain ⟨hread, hheaders⟩ := hheaders
    rw [Vm.loadSegments]
    rw [Inode.headers] at hfit ⊢
    dsimp only
    rw [if_neg (not_not.mpr hread)]
    generalize ip.readi off sizeofProghdr = l at hfit hread ⊢
    have hfit' := fun h hh ↦ hfit h (List.mem_cons_of_mem _ hh)
    by_cases ht : (proghdr l).type = ELF_PROG_LOAD
    swap
    · rw [if_pos ht]
      refine (ih (hb.skip ht) hheaders hfit' hsz hplenty).mono ?_
      rintro r ⟨sz', hr, hge, hle, hall, hcount⟩
      refine ⟨sz', hr, hge, hle, fun h hh ht' ↦ ?_, hcount⟩
      rcases List.mem_cons.mp hh with rfl | hh
      · exact absurd ht' ht
      · exact hall h hh ht'
    have hh := hfit _ List.mem_cons_self ht
    have hfilesz := hh.filesz_le
    have hpos := hh.pos
    have hwithin := hh.within
    have hend : ((proghdr l).vaddr + (proghdr l).memsz) % 2 ^ 32 =
        (proghdr l).vaddr + (proghdr l).memsz := by
      rw [KERNBASE] at hN
      omega
    rw [if_neg (not_not.mpr ht), if_neg (by omega), hend, if_neg (by omega)]
    have hmono := pages_mono hwithin
    refine (hb.allocuvm_enough hnd hl (by omega) hpos
      (fun hs ↦ hplenty (hs.mono (by omega)))).bind ?_
    rintro ⟨sz₁, pgdir₁, m₁⟩ ⟨hsz₁, hb₁, hcount₁⟩
    dsimp only at hsz₁ hb₁ hcount₁ ⊢
    rw [if_neg (by omega), if_neg (not_not.mpr hh.aligned)]
    have hmono₁ := pages_mono (show sz ≤ sz₁ by omega)
    have hmono₂ := pages_mono (show sz₁ ≤ N by omega)
    refine (((hb₁.loaduvm hnd ht (by omega) hh.aligned).and ((loaduvm_complete (by omega)
      hh.complete).and loaduvm_freelist)).weaken (fun _ h ↦ h.1)).bind ?_
    rintro ⟨loaded, m₂⟩ ⟨⟨-, hb₂⟩, rfl, hfree⟩
    dsimp only at hb₂ hfree ⊢
    have hlength := congrArg List.length hfree
    rw [if_pos rfl]
    refine (ih (hb₂ rfl) hheaders hfit' (by omega) ?_).mono ?_
    · rintro (hfails | hshort)
      · exact hplenty (.inl hfails)
      · exact hplenty (.inr (by omega))
    rintro r ⟨sz', hr, hge, hle, hall, hcount⟩
    have hmono₃ := pages_mono hge
    refine ⟨sz', hr, by omega, hle, fun h hh ht' ↦ ?_, by omega⟩
    rcases List.mem_cons.mp hh with rfl | hh
    · omega
    · exact hall h hh ht'

end

theorem loadImage_enough (ip : Inode) (N : ℕ) (hl : Linked data) (hfree : ∀ p ∈ m.freelist, Mem.Valid M p)
    (hnd : m.freelist.Nodup) (hN : N + 3 * PGSIZE < KERNBASE)
    (hlen : (ip.readi 0 sizeofElfhdr).length = sizeofElfhdr)
    (hmagic : (elfhdr (ip.readi 0 sizeofElfhdr)).magic = ELF_MAGIC)
    (hheaders : ip.HasHeaders (elfhdr (ip.readi 0 sizeofElfhdr)).phnum
      (elfhdr (ip.readi 0 sizeofElfhdr)).phoff)
    (hfit : ∀ h ∈ ip.programHeaders, h.type = ELF_PROG_LOAD → h.Fits ip N)
    (hplenty : ¬ Short M m (1 + kernelTables (kmap data) + 2 * pages N + 4)) :
    ∃ img m', loadImage M data ip m = .ok (some img, m') ∧
      ∀ h ∈ ip.programHeaders, h.type = ELF_PROG_LOAD → h.vaddr + h.memsz + 2 * PGSIZE ≤ img.sz := by
  suffices hok : Ensures (fun r ↦ ∃ img, r.1 = some img ∧ ∀ h ∈ ip.programHeaders,
      h.type = ELF_PROG_LOAD → h.vaddr + h.memsz + 2 * PGSIZE ≤ img.sz) (fun _ ↦ False)
      (loadImage M data ip m) by
    obtain ⟨⟨r, m'⟩, hr, img, rfl, himg⟩ := hok.exists_ok
    exact ⟨img, m', hr, himg⟩
  rw [loadImage]
  dsimp only
  rw [if_neg (not_not.mpr hlen), if_neg (not_not.mpr hmagic)]
  refine ((((Pgdir.setupkvm_ensures hl).weaken (fun _ hs ↦ hplenty (hs.mono (by omega)))).and
    (Pgdir.setupkvm_conserves hfree hl)).weaken (fun _ h ↦ h.1)).bind ?_
  rintro ⟨r, m₁⟩ ⟨hkernel, hcons⟩
  cases r with
  | none => exact (hplenty (Short.mono hkernel (by omega))).elim
  | some pgdir₁ =>
    have hb : Built M data m ip [] 0 pgdir₁ m₁ := .nil (.of_kernel hfree hkernel) hcons
    have hzero : pages 0 = 0 := by decide
    have hN' : N < KERNBASE := by omega
    have hcount := hkernel.draws.count
    dsimp only at hcount
    refine (((hb.loadSegments hnd hl).and (hb.loadSegments_enough hnd hl hN' hheaders hfit
      (Nat.zero_le N) ?_)).weaken (fun _ h ↦ h.1)).bind ?_
    · exact fun hs ↦ hplenty ((hkernel.draws.short hs).mono (by omega))
    rintro ⟨r, pgdir₂, m₂⟩ ⟨⟨-, hload⟩, sz, hr, -, hle, hall, hcount₂⟩
    dsimp only at hload hr hcount₂ ⊢
    have hb₂ := hload sz hr
    rw [hr]
    dsimp only
    have hround := PGROUNDUP_eq hb₂.le
    have hpages := pages_mono hle
    have hbound : pages sz * PGSIZE + 2 * PGSIZE < KERNBASE := by
      simp only [pages, PGSIZE] at hN ⊢
      omega
    have hnew : (pages sz * PGSIZE + 2 * PGSIZE) % 2 ^ 32 = (pages sz + 2) * PGSIZE := by
      simp only [PGSIZE, KERNBASE] at hbound ⊢
      omega
    have hmul : (pages sz + 2) * PGSIZE = pages sz * PGSIZE + 2 * PGSIZE := Nat.add_mul _ _ _
    have hnewpages : pages ((pages sz + 2) * PGSIZE) = pages sz + 2 := by
      simp only [pages, PGSIZE]
      omega
    have hpage : 0 < PGSIZE := by decide
    refine (hb₂.round.allocuvm_enough hnd hl (by rw [hround, hnew]; omega) (by rw [hround, hnew]; omega)
      ?_).bind ?_
    · rw [hround, hnew, hnewpages, ← hround, pages_PGROUNDUP hb₂.le]
      rintro (hfails | hshort)
      · exact hplenty (.inl hfails)
      · exact hplenty (.inr (by omega))
    rintro ⟨sz₃, pgdir₃, m₃⟩ ⟨hsz₃, hb₃, -⟩
    rw [hround, hnew] at hsz₃
    dsimp only at hsz₃ hb₃ ⊢
    have hsz : sz₃ = (pages sz + 2) * PGSIZE := by omega
    rw [if_neg (by omega)]
    refine (hb₃.stack hsz (by omega) ?_).bind (fun pgdir₄ _ ↦ ⟨_, rfl, fun h hh ht ↦ ?_⟩)
    · simp only [PGSIZE, KERNBASE] at hbound
      omega
    · have hseg := hall h hh ht
      have hfits : sz ≤ pages sz * PGSIZE := by
        simp only [pages, PGSIZE]
        omega
      dsimp only
      omega

/-- No file makes the loading of a program panic. When `exec` returns 0, every address below the guard
page, and with it every one below the size that the loop over the headers has reached, has the byte of
the last segment that covers it. -/
theorem exec_loads_program_image (namei : List UInt8 → Option Inode) (path : List UInt8)
    (argv : List (List UInt8)) {t : Task} (hlen : l.length < 2 ^ 32) (hl : Linked data)
    (ht : t.pgdir.Kept M m) (hnamei : namei path = some (.ofFile l)) :
    (∀ e, loadImage M data (.ofFile l) m ≠ .error e) ∧
    ∀ t' m'', exec M data namei path argv t m = .ok (0, t', m'') → ∀ a, a + 2 * PGSIZE < t'.sz →
      t'.pgdir.byte m'' a = fileByte l (Inode.ofFile l).programHeaders a := by
  have hbuilds : Ensures _ _ (loadImage M data (.ofFile l) m) := loadImage_builds hl ht.free ht.nodup
  refine ⟨fun e he ↦ hbuilds.of_error he, fun t' m'' hexec a ha ↦ ?_⟩
  rcases (exec_ensures namei path argv hl ht).of_ok hexec with
    ⟨-, ip, img, m', hip, hload, hc⟩ | ⟨hno, -⟩
  swap
  · cases hno
  rw [hnamei] at hip
  cases hip
  have hb : img.Built data m (.ofFile l) (Inode.ofFile l).programHeaders m' := hbuilds.of_ok hload
  -- the arguments are not in the pages of the program
  have hphys (e : Pte) (he : t'.pgdir.tr (a / PGSIZE) = some e) : m''.phys e.ppn = m'.phys e.ppn := by
    refine hc.others _ e ?_ he
    simp only [PGSIZE] at ha ⊢
    omega
  rw [Pgdir.byte_congr rfl hphys, hc.pgdir, hb.bytes a (hc.sz ▸ ha)]
  exact imageByte_ofFile hlen (fun h hmem ↦ headers_off_lt hmem) hb.complete

def segmentAt (off filesz memsz : ℕ) : List UInt8 :=
  toBytes 4 ELF_PROG_LOAD ++ toBytes 4 off ++ List.replicate 8 0 ++ toBytes 4 filesz ++
    toBytes 4 memsz ++ List.replicate 8 0

def twoSegments : List UInt8 :=
  toBytes 4 ELF_MAGIC ++ List.replicate 24 0 ++ toBytes 4 52 ++ List.replicate 12 0 ++ toBytes 2 2 ++
    List.replicate 6 0 ++ segmentAt 116 3 5 ++ segmentAt 118 1 1 ++ [1, 2, 3]

theorem elfhdr_twoSegments :
    elfhdr ((Inode.ofFile twoSegments).readi 0 sizeofElfhdr) = ⟨ELF_MAGIC, 0, 52, 2⟩ := by
  decide +kernel

theorem programHeaders_twoSegments : (Inode.ofFile twoSegments).programHeaders =
    [⟨1, 116, 0, 3, 5⟩, ⟨1, 118, 0, 1, 1⟩] := by
  rw [Inode.programHeaders, elfhdr_twoSegments]
  decide +kernel

theorem twoSegments_fits : ∀ h ∈ (Inode.ofFile twoSegments).programHeaders,
    h.Fits (.ofFile twoSegments) 5 := by
  rw [programHeaders_twoSegments]
  have hcomplete (off filesz memsz : ℕ) (hle : filesz < PGSIZE)
      (hread : ((Inode.ofFile twoSegments).readi (off % 2 ^ 32) filesz).length = filesz) :
      (Inode.ofFile twoSegments).Complete ⟨1, off, 0, filesz, memsz⟩ := by
    intro k hk
    have hk0 : k = 0 := by
      dsimp only at hk
      simp only [PGSIZE] at hk hle
      omega
    have hmin : min filesz PGSIZE = filesz := by omega
    rw [Inode.segmentPage, hk0, Nat.zero_mul, Nat.add_zero, Nat.sub_zero, hmin, hread]
  intro h hh
  simp only [List.mem_cons, List.not_mem_nil, or_false] at hh
  rcases hh with rfl | rfl
  · exact ⟨by decide, by decide, by decide, by decide, hcomplete _ _ _ (by decide) (by decide +kernel)⟩
  · exact ⟨by decide, by decide, by decide, by decide, hcomplete _ _ _ (by decide) (by decide +kernel)⟩

/-- The first byte is that of the second segment, and the last two are not in the file. -/
theorem exec_loads_two_segments : ∃ t' m'', exec smallMachine smallData
      (fun _ ↦ some (.ofFile twoSegments)) [47] [] smallTask manyPages = .ok (0, t', m'') ∧
    (List.range 5).map (t'.pgdir.byte m'') = [some 3, some 2, some 3, some 0, some 0] := by
  have hkept := smallTask_kept
  obtain ⟨img, m', hload, hsz⟩ := loadImage_enough (.ofFile twoSegments) 5 linked_small
    hkept.free hkept.nodup (by decide) (by decide +kernel) (by rw [elfhdr_twoSegments])
    (by rw [elfhdr_twoSegments]; decide +kernel)
    (fun h hh _ ↦ twoSegments_fits h hh) (by
      rintro (⟨i, hi⟩ | hs)
      · cases hi
      · exact absurd hs (by decide))
  obtain ⟨r, t', m'', hexec, ⟨rfl, hc⟩ | ⟨-, hno⟩⟩ := exec_of_loaded
    (fun _ ↦ some (.ofFile twoSegments)) [47] [] linked_small hkept rfl hload (by decide) (Nat.zero_le _)
  swap
  · exact absurd (by decide) hno
  refine ⟨t', m'', hexec, ?_⟩
  have hbytes := (exec_loads_program_image (fun _ ↦ some (.ofFile twoSegments)) [47] []
    (by decide +kernel) linked_small hkept rfl).2 t' m'' hexec
  have hroom := hsz ⟨1, 116, 0, 3, 5⟩ (programHeaders_twoSegments ▸ List.mem_cons_self) rfl
  dsimp only at hroom
  rw [programHeaders_twoSegments, hc.sz] at hbytes
  have hlow (a : ℕ) (ha : a < 5) := hbytes a (by omega)
  simp only [List.range, List.range.loop, List.map_cons, List.map_nil]
  rw [hlow 0 (by decide), hlow 1 (by decide), hlow 2 (by decide), hlow 3 (by decide), hlow 4 (by decide)]
  decide

end Xv6Bfs.Vm
