import Xv6Bfs.Fs.Frames
import Xv6Bfs.Mkfs.Simulation

namespace Xv6Bfs.Mkfs

open Lib.Bytes Lib.Execution Disk Fs Function
open Fs.State (blocksFor blocksFor_mono)
open Sysfile (NINODES ROOTINO)

def total (l : List (ℕ × List UInt8)) : ℕ := (l.map fun x ↦ blocksFor (blocksOf x.2.length)).sum

/-- What `mkfs` has made, as the kernel sees it: the inodes from 1 on have the types and the contents
that are listed, and the other ones are free. -/
structure Built (sb : Superblock) (l : List (ℕ × List UInt8)) (m : State) (s : Fs.State) : Prop where
  sim : Sim sb (l.length + 1) m s
  wf : WellFormed sb s
  idle : ∀ k, (s.icache k).ref = 0
  length : l.length < sb.ninodes
  inode : ∀ i x, l[i]? = some x → (s.dinode sb (i + 1)).type = x.1 ∧ s.files sb (i + 1) = x.2
  unused : ∀ i, i < sb.ninodes → i = 0 ∨ l.length < i → (s.dinode sb i).type = 0
  blocks : m.freeblock = sb.datastart + total l
  types : ∀ x ∈ l, x.1 = T_DIR ∨ x.1 = T_FILE

section

variable {l l₁ l₂ : List (ℕ × List UInt8)} {x y : ℕ × List UInt8} {t : ℕ} {c src : List UInt8}

@[simp] theorem total_cons : total (x :: l) = blocksFor (blocksOf x.2.length) + total l := by
  simp [total]

@[simp] theorem total_nil : total [] = 0 := rfl

@[simp] theorem total_append : total (l₁ ++ l₂) = total l₁ + total l₂ := by simp [total]

variable {sb : Superblock} {m m' : State} {s s' : Fs.State} {k : Fin NINODE} {i : ℕ}

theorem wellFormed_idle (h : WellFormed sb s) (hs : s'.cache = s.cache) (hidle : ∀ k, (s'.icache k).ref = 0) :
    WellFormed sb s' := by
  have hno : ∀ k, ¬ 0 < (s'.icache k).ref := fun k ↦ by rw [hidle]; exact lt_irrefl 0
  exact h.of_slots hs ⟨fun k hr ↦ absurd hr (hno k), fun k hr ↦ absurd hr (hno k),
    fun k _ hr ↦ absurd hr (hno k)⟩

def idleCache : Fin NINODE → Inode := fun _ ↦ ⟨⟨0, 0, 0, 0, 0, fun _ ↦ 0⟩, 0, 0, false, false⟩

def opened (sb : Superblock) (k : Fin NINODE) (i : ℕ) (s : Fs.State) : Fs.State :=
  { s with icache := update idleCache k ⟨s.dinode sb i, i, 1, true, true⟩ }

theorem opened_self : (opened sb k i s).icache k = ⟨s.dinode sb i, i, 1, true, true⟩ := update_self ..

theorem opened_ref {k' : Fin NINODE} (hr : 0 < ((opened sb k i s).icache k').ref) : k' = k := by
  by_contra hne
  have hself : (opened sb k i s).icache k' = idleCache k' := update_of_ne hne ..
  rw [hself] at hr
  exact lt_irrefl 0 hr

theorem opened_wellFormed (h : WellFormed sb s) (hi : i < sb.ninodes) (ht : (s.dinode sb i).type ≠ 0) :
    WellFormed sb (opened sb k i s) := by
  refine h.of_slots rfl ⟨fun k' hr ↦ ?_, fun k' hr _ ↦ ?_, fun k₁ k₂ h₁ h₂ _ ↦ ?_⟩
  · obtain rfl := opened_ref hr
    rwa [opened_self]
  · obtain rfl := opened_ref hr
    rw [opened_self]
    exact ⟨rfl, ht⟩
  · rw [opened_ref h₁, opened_ref h₂]

end

namespace Built

variable {sb : Superblock} {l l₁ l₂ : List (ℕ × List UInt8)} {m m' : State} {s s' : Fs.State}
  {t i : ℕ} {x : ℕ × List UInt8} {c src : List UInt8}

theorem type_ne (h : Built sb l m s) (hx : l[i]? = some x) :
    i + 1 < sb.ninodes ∧ (s.dinode sb (i + 1)).type ≠ 0 ∧ (s.dinode sb (i + 1)).type ≠ T_DEV := by
  have hi : i < l.length := (List.getElem?_eq_some_iff.mp hx).1
  have hlen := h.length
  rw [(h.inode i x hx).1]
  rcases h.types x (List.mem_of_getElem? hx) with ht | ht <;> rw [ht] <;>
    exact ⟨by omega, by decide, by decide⟩

theorem ialloc (h : Built sb l m s) (hlen : l.length + 1 < sb.ninodes) (ht : t = T_DIR ∨ t = T_FILE) :
    ∃ m' s', m.ialloc sb t = .ok (l.length + 1, m') ∧ Built sb (l ++ [(t, [])]) m' s' := by
  have hfree : (s.dinode sb (l.length + 1)).type = 0 := h.unused _ hlen (.inr (Nat.lt_succ_self _))
  have hfits : (⟨t, 0, 0, 1, 0, fun _ ↦ 0⟩ : Dinode).Fits := by
    refine ⟨?_, Nat.two_pow_pos 16, Nat.two_pow_pos 16, by norm_num, Nat.two_pow_pos 32,
      fun _ ↦ Nat.two_pow_pos 32⟩
    rcases ht with rfl | rfl <;> exact Nat.lt_of_le_of_lt (by decide) (Nat.lt_two_pow_self (n := 16))
  have hnext : Sim sb (l.length + 1 + 1) { m with freeinode := m.freeinode + 1 } s := by
    obtain ⟨hsize, hstart, hfree, hmap, himg, hzero, hsuper, hsectors, hle, hfull⟩ := h.sim
    exact ⟨hsize, hstart, by rw [← hfree], hmap, himg, hzero, hsuper, hsectors, hle, hfull⟩
  obtain ⟨m', hw, hblock, hsim⟩ := hnext.winode hlen ⟨t, 0, 0, 1, 0, fun _ ↦ 0⟩
  have hself : (s.putDinode sb (l.length + 1) ⟨t, 0, 0, 1, 0, fun _ ↦ 0⟩).dinode sb (l.length + 1) =
      ⟨t, 0, 0, 1, 0, fun _ ↦ 0⟩ := Fs.State.dinode_putDinode_self hfits
  refine ⟨m', s.putDinode sb (l.length + 1) ⟨t, 0, 0, 1, 0, fun _ ↦ 0⟩, ?_, ?_, ?_, h.idle, ?_, ?_, ?_,
    ?_, ?_⟩
  · rw [State.ialloc, h.sim.freeinode]
    rw [h.sim.freeinode] at hw
    rw [hw]
    rfl
  · simpa using hsim
  · exact h.wf.put_empty hlen hfree hfits (fun _ ↦ rfl) rfl
  · simpa using hlen
  · intro i x hx
    rcases Nat.lt_or_ge i l.length with hi | hi
    · rw [List.getElem?_append_left hi] at hx
      obtain ⟨hlt, hne, -⟩ := h.type_ne hx
      have hkeeps := Keeps.of_putDinode rfl h.wf hlt hne hlen hfits (by omega)
      rw [hkeeps.type, hkeeps.files]
      exact h.inode i x hx
    · obtain ⟨rfl, rfl⟩ : i = l.length ∧ (t, []) = x := by
        rw [List.getElem?_append_right hi, List.getElem?_singleton] at hx
        split at hx
        · exact ⟨by omega, by simpa using hx⟩
        · cases hx
      rw [Fs.State.files, hself]
      exact ⟨rfl, rfl⟩
  · intro i hi hout
    rw [List.length_append, List.length_singleton] at hout
    rw [Fs.State.dinode_putDinode_ne (by omega)]
    exact h.unused i hi (by omega)
  · have hempty : blocksFor (blocksOf 0) = 0 := by decide
    rw [hblock, total_append, total_cons, total_nil, List.length_nil, hempty]
    exact h.blocks
  · intro x hx
    rcases List.mem_append.mp hx with hx | hx
    · exact h.types x hx
    · rw [List.mem_singleton.mp hx]
      exact ht

theorem iappend (h : Built sb (l₁ ++ (t, c) :: l₂) m s) (hsrc : 0 < src.length)
    (hmax : c.length + src.length ≤ MAXFILE * BSIZE)
    (hroom : sb.datastart + total (l₁ ++ (t, c ++ src) :: l₂) ≤ FSSIZE) :
    ∃ m' s', m.iappend sb (l₁.length + 1) src = .ok m' ∧ Built sb (l₁ ++ (t, c ++ src) :: l₂) m' s' := by
  have hx : (l₁ ++ (t, c) :: l₂)[l₁.length]? = some (t, c) := by simp
  have hother : ∀ i, i ≠ l₁.length →
      (l₁ ++ (t, c ++ src) :: l₂)[i]? = (l₁ ++ (t, c) :: l₂)[i]? := by
    intro i hi
    grind
  obtain ⟨hlt, hne, hdev⟩ := h.type_ne hx
  obtain ⟨htype, hfiles⟩ := h.inode _ _ hx
  have hsize : (s.dinode sb (l₁.length + 1)).size = c.length := by
    have hlen := congrArg List.length hfiles
    rwa [Fs.State.files, length_contents] at hlen
  let k : Fin NINODE := ⟨0, NINODE_pos⟩
  have hwf : WellFormed sb (opened sb k (l₁.length + 1) s) := opened_wellFormed h.wf hlt hne
  have hself : (opened sb k (l₁.length + 1) s).icache k =
    ⟨s.dinode sb (l₁.length + 1), l₁.length + 1, 1, true, true⟩ := opened_self
  have hsim : Sim sb ((l₁ ++ (t, c) :: l₂).length + 1) m (opened sb k (l₁.length + 1) s) :=
    h.sim.congr rfl
  generalize hs₀ : opened sb k (l₁.length + 1) s = s₀ at hwf hself hsim
  have hfree := hsim.freeBlocks
  have hblocks := h.blocks
  rw [total_append, total_cons] at hroom hblocks
  rw [List.length_append] at hroom
  have hr : 0 < (s₀.icache k).ref := by rw [hself]; exact Nat.one_pos
  have hv : (s₀.icache k).valid = true := by rw [hself]
  have ht : (s₀.icache k).type ≠ T_DEV := by rwa [hself]
  have hlen : (s₀.icache k).size = c.length := by rw [hself, ← hsize]
  have hmax₀ : (s₀.icache k).size + src.length ≤ MAXFILE * BSIZE := by rwa [hlen]
  have hwritei : Ensures (fun r ↦ r.1 = some src.length ∧ Written sb k src (s₀.icache k).size s₀ r.2)
      (fun _ ↦ False) (s₀.writei sb noDevice k src (s₀.icache k).size) := by
    apply (hwf.writei_ensures hr hv ht le_rfl hmax₀).weaken
    intro e he
    have herr := he.2
    rw [max_eq_right (blocksOf_mono (Nat.le_add_right _ _)), hlen] at herr
    dsimp only at hroom hblocks
    omega
  obtain ⟨⟨r, s₁⟩, hw, -, hwritten⟩ := hwritei.exists_ok
  obtain ⟨m', happend, hsim', hused⟩ := hsim.iappend hwf hr hv ht hsrc hmax₀ hw
  have hinum : (s₀.icache k).inum = l₁.length + 1 := by rw [hself]
  have hcache : s₀.cache = s.cache := by rw [← hs₀]; rfl
  have hdinode : s₀.dinode sb = s.dinode sb := by rw [← hs₀]; rfl
  have hold : ∀ j, j < sb.ninodes → j ≠ l₁.length + 1 → s₁.dinode sb j = s.dinode sb j := by
    intro j hj hji
    rw [hwritten.dinode j hj (by rwa [hinum]), hdinode]
  obtain ⟨size, addrs, hslot⟩ := hwritten.self
  have hslot' : 0 < (s₁.icache k).ref ∧ (s₁.icache k).valid = true ∧
      (s₁.icache k).inum = l₁.length + 1 ∧ (s₁.icache k).type = t := by
    rw [hslot]
    exact ⟨hr, hv, hinum, by rw [hself]; exact htype⟩
  have hcached := (hwritten.wellFormed.cached k hslot'.1 hslot'.2.1).1
  rw [hslot'.2.2.1] at hcached
  refine ⟨m', { s₁ with icache := s.icache }, by rw [← hinum]; exact happend, ?_, ?_, h.idle, ?_, ?_, ?_,
    ?_, ?_⟩
  · rw [List.length_append] at hsim' ⊢
    exact hsim'.congr rfl
  · exact wellFormed_idle hwritten.wellFormed rfl h.idle
  · have := h.length
    rwa [List.length_append] at this ⊢
  · intro i x hi
    by_cases hil : i = l₁.length
    · subst hil
      obtain rfl : (t, c ++ src) = x := by simpa using hi
      change (s₁.dinode sb (l₁.length + 1)).type = t ∧ contents s₁.cache (s₁.dinode sb (l₁.length + 1)) = _
      rw [← hcached]
      refine ⟨hslot'.2.2.2, hwritten.contents.trans ?_⟩
      have hbytes : contents s₀.cache (s₀.icache k).toDinode = c := by
        rw [hcache, hself]
        exact hfiles
      rw [overwrite, hbytes, hlen]
      simp
    · rw [hother i hil] at hi
      obtain ⟨hlt', hne', -⟩ := h.type_ne hi
      have hi' : i + 1 ≠ l₁.length + 1 := by omega
      change (s₁.dinode sb (i + 1)).type = _ ∧ contents s₁.cache (s₁.dinode sb (i + 1)) = _
      rw [hwritten.foreign _ hlt' (by rwa [hinum]) (by rwa [hdinode]), hold _ hlt' hi', hcache, hdinode]
      exact h.inode i x hi
  · intro i hi hout
    rw [List.length_append] at hout
    change (s₁.dinode sb i).type = 0
    rw [hold i hi (by simp only [List.length_cons] at hout; omega)]
    exact h.unused i hi (by rwa [List.length_append])
  · rw [hlen] at hused
    rw [total_append, total_cons, List.length_append]
    dsimp only at hblocks ⊢
    omega
  · intro x hmem
    have ht := h.types (t, c) (by simp)
    rcases List.mem_append.mp hmem with hmem | hmem
    · exact h.types x (by simp [hmem])
    · rcases List.mem_cons.mp hmem with rfl | hmem
      · exact ht
      · exact h.types x (by simp [hmem])

theorem appendChunks {chunks : List (List UInt8)} (h : Built sb (l₁ ++ (t, c) :: l₂) m s)
    (hpos : ∀ p ∈ chunks, 0 < p.length) (hmax : c.length + chunks.flatten.length ≤ MAXFILE * BSIZE)
    (hroom : sb.datastart + total (l₁ ++ (t, c ++ chunks.flatten) :: l₂) ≤ FSSIZE) :
    ∃ m' s', exec (State.iappend sb (l₁.length + 1)) chunks m = .ok m' ∧
      Built sb (l₁ ++ (t, c ++ chunks.flatten) :: l₂) m' s' := by
  induction chunks generalizing c m s with
  | nil => exact ⟨m, s, rfl, by simpa using h⟩
  | cons p chunks ih =>
    rw [List.flatten_cons] at hmax hroom ⊢
    rw [List.length_append] at hmax
    rw [← List.append_assoc] at hroom ⊢
    have hfirst : sb.datastart + total (l₁ ++ (t, c ++ p) :: l₂) ≤ FSSIZE := by
      refine le_trans ?_ hroom
      simp only [total_append, total_cons]
      have := blocksFor_mono (blocksOf_mono (List.sublist_append_left (c ++ p) chunks.flatten).length_le)
      omega
    obtain ⟨m₁, s₁, happend, h₁⟩ := h.iappend (hpos p (.head _)) (by omega) hfirst
    obtain ⟨m₂, s₂, hrest, h₂⟩ := ih h₁ (fun q hq ↦ hpos q (.tail _ hq))
      (by rw [List.length_append]; omega) hroom
    refine ⟨m₂, s₂, ?_, h₂⟩
    rw [exec_cons, happend, ok_bind]
    exact hrest

end Built

def rootBytes (files : List HostFile) : List UInt8 :=
  dirent ROOTINO [46] ++ dirent ROOTINO [46, 46] ++
    (files.mapIdx fun j f ↦ dirent (j + 2) f.target).flatten

def inodes (files : List HostFile) : List (ℕ × List UInt8) :=
  (T_DIR, rootBytes files) :: files.map fun f ↦ (T_FILE, f.bytes)

def blocks (files : List HostFile) : ℕ := nmeta + total (inodes files)

section

variable {files l : List HostFile} {f : HostFile}

theorem rootBytes_concat : rootBytes (l ++ [f]) = rootBytes l ++ dirent (l.length + 2) f.target := by
  simp [rootBytes, List.mapIdx_append]

theorem length_rootBytes : (rootBytes files).length = DIRENT * (files.length + 2) := by
  induction files using List.reverseRecOn with
  | nil => rfl
  | append_singleton l f ih =>
    rw [rootBytes_concat, List.length_append, ih, length_dirent, List.length_append,
      List.length_singleton]
    ring

theorem length_inodes : (inodes files).length = files.length + 1 := by simp [inodes]

theorem inodes_concat : inodes (l ++ [f]) =
    (T_DIR, rootBytes l ++ dirent (l.length + 2) f.target) ::
      (l.map fun f ↦ (T_FILE, f.bytes)) ++ [(T_FILE, f.bytes)] := by
  simp [inodes, rootBytes_concat]

theorem total_inodes_le {l' : List HostFile} : total (inodes l) ≤ total (inodes (l ++ l')) := by
  have hroot : (rootBytes l).length ≤ (rootBytes (l ++ l')).length := by
    rw [length_rootBytes, length_rootBytes, List.length_append]
    exact Nat.mul_le_mul_left _ (by omega)
  have hblocks := blocksFor_mono (blocksOf_mono hroot)
  simp only [inodes, total_cons, List.map_append, total_append]
  omega

end

section

variable {sb : Superblock} {m : State} {s : Fs.State} {files l : List HostFile} {f : HostFile}

theorem Built.addFile (h : Built sb (inodes l) m s) (hn : sb.ninodes = NINODES)
    (hslash : 47 ∉ f.name) (hlen : l.length + 2 < NINODES) (hsize : f.bytes.length ≤ MAXFILE * BSIZE)
    (hroom : sb.datastart + total (inodes (l ++ [f])) ≤ FSSIZE) :
    ∃ m' s', m.addFile sb ROOTINO f = .ok m' ∧ Built sb (inodes (l ++ [f])) m' s' := by
  have hempty : blocksFor (blocksOf 0) = 0 := by decide
  rw [inodes_concat, total_append, total_cons, total_cons, total_nil] at hroom
  obtain ⟨m₁, s₁, halloc, h₁⟩ := h.ialloc (by rw [length_inodes, hn]; omega) (.inr rfl)
  rw [length_inodes] at halloc
  have h₁ : Built sb ([] ++ (T_DIR, rootBytes l) :: ((l.map fun f ↦ (T_FILE, f.bytes)) ++ [(T_FILE, [])]))
    m₁ s₁ := h₁
  have hdir : (rootBytes l).length + (dirent (l.length + 2) f.target).length ≤ MAXFILE * BSIZE := by
    rw [length_rootBytes, length_dirent]
    unfold NINODES at hlen
    unfold DIRENT MAXFILE NDIRECT NINDIRECT BSIZE
    omega
  have hpos : 0 < (dirent (l.length + 2) f.target).length := by
    rw [length_dirent]
    decide
  obtain ⟨m₂, s₂, hentry, h₂⟩ := h₁.iappend hpos hdir (by
    simp only [List.nil_append, total_cons, total_append, List.length_nil, hempty, total_nil]
    dsimp only at hroom
    omega)
  have h₂ : Built sb (((T_DIR, rootBytes l ++ dirent (l.length + 2) f.target) ::
      l.map fun f ↦ (T_FILE, f.bytes)) ++ (T_FILE, []) :: []) m₂ s₂ := h₂
  have hbytes : [] ++ f.chunks.flatten = f.bytes := rfl
  obtain ⟨m₃, s₃, hchunks, h₃⟩ := h₂.appendChunks f.chunk_pos
    (by rw [List.length_nil, Nat.zero_add]; exact hsize) (by
      rw [hbytes]
      simp only [total_cons, total_append, total_nil]
      exact hroom)
  refine ⟨m₃, s₃, ?_, ?_⟩
  · have hroot : m₁.iappend sb ROOTINO (dirent (l.length + 1 + 1) f.target) = .ok m₂ := hentry
    rw [List.length_cons, List.length_map] at hchunks
    rw [State.addFile, if_neg hslash, halloc, ok_bind]
    dsimp only
    rw [hroot, ok_bind]
    exact hchunks
  · rw [inodes_concat]
    exact h₃

theorem Built.addFiles (h : Built sb (inodes []) m s) (hn : sb.ninodes = NINODES)
    (hlen : files.length ≤ NINODES - 2) (hsize : ∀ f ∈ files, f.bytes.length ≤ MAXFILE * BSIZE)
    (hroom : sb.datastart + total (inodes files) ≤ FSSIZE) :
    Ensures (fun m' ↦ ∃ s', Built sb (inodes files) m' s')
      (fun e ↦ e = .slash ∧ ∃ f ∈ files, 47 ∈ f.name) (exec (State.addFile sb ROOTINO) files m) := by
  apply Ensures.exec_prefix (fun l m ↦ ∃ s, Built sb (inodes l) m s)
  · intro l f l' hl m' ⟨s', h'⟩
    by_cases hslash : 47 ∈ f.name
    · rw [State.addFile, if_pos hslash]
      exact ⟨rfl, f, by simp [hl], hslash⟩
    have hsub : total (inodes (l ++ [f])) ≤ total (inodes files) := by
      have hsplit : l ++ f :: l' = (l ++ [f]) ++ l' := List.append_cons ..
      rw [hl, hsplit]
      exact total_inodes_le
    have hlt : l.length + 2 < NINODES := by
      have hcount := congrArg List.length hl
      rw [List.length_append, List.length_cons] at hcount
      unfold NINODES at hlen ⊢
      omega
    obtain ⟨m₁, s₁, hstep, h₁⟩ := h'.addFile hn hslash hlt (hsize f (by simp [hl])) (by omega)
    rw [hstep]
    exact ⟨s₁, h₁⟩
  · exact ⟨s, h⟩

end

structure IsLayout (sb : Superblock) : Prop where
  size : sb.size = FSSIZE
  ninodes : sb.ninodes = NINODES
  start : 1 < sb.inodestart
  datastart : sb.datastart = nmeta

theorem superblock_isLayout : IsLayout superblock := ⟨rfl, rfl, by decide, by decide⟩

theorem zeroed_eq {n : ℕ} (hn : n ≤ FSSIZE) :
    exec (fun i m ↦ State.wsect i zeroes m) (List.range n) start = .ok { start with sectors := n } := by
  induction n with
  | zero => rfl
  | succ n ih =>
    have hsame : update start.img n zeroes = start.img := update_eq_self n start.img
    have hsectors : max n (n + 1) = n + 1 := max_eq_right (Nat.le_succ n)
    rw [List.range_succ, exec_append, ih (Nat.le_of_succ_le hn), ok_bind, exec_cons, State.wsect,
      if_neg (by omega)]
    dsimp only
    rw [hsame, hsectors, ok_bind]
    rfl

theorem num_zeroes (off w : ℕ) : num zeroes off w = 0 := by
  have hpeek : ∀ i, peek zeroes i = 0 := by
    intro i
    unfold peek
    split <;> rfl
  have hzero : ∀ n, fromBytes (List.replicate n 0) = 0 := by
    intro n
    induction n with
    | zero => rfl
    | succ n ih =>
      rw [fromBytes] at ih ⊢
      rw [List.replicate_succ, List.map_cons, Nat.ofDigits_cons, ih]
      rfl
  rw [num, slice]
  simp only [hpeek, List.map_const', List.length_range]
  exact hzero w

section

variable {sb : Superblock} {m : State} {s : Fs.State} {files : List HostFile}

def formatted (sb : Superblock) : State :=
  ⟨update (fun _ ↦ zeroes) 1 (superBlock sb), FSSIZE, 1, nmeta⟩

theorem formatted_one : (formatted sb).img 1 = superBlock sb := by simp [formatted]

theorem formatted_zero {b : ℕ} (hb : b ≠ 1) : (formatted sb).img b = zeroes := by
  simp [formatted, hb]

theorem formatted_built (h : IsLayout sb) : ∃ s, Built sb [] (formatted sb) s := by
  have hmap : sb.bmapstart < nmeta := h.datastart ▸ sb.bmapstart_lt
  have hone : 1 < sb.bmapstart := h.start.trans ((Nat.le_add_right _ _).trans_lt sb.inodes_lt)
  let s : Fs.State := ⟨update (formatted sb).img sb.bmapstart (State.usedMap nmeta), idleCache, []⟩
  have hsim : Sim sb 1 (formatted sb) s := by
    refine ⟨h.size, h.start, rfl, update_self .., fun b hb ↦ update_of_ne hb .., fun b hb ↦ ?_,
      formatted_one, rfl, h.datastart.le, (by decide : nmeta ≤ FSSIZE)⟩
    have hb : nmeta ≤ b := hb
    exact formatted_zero (by omega)
  have hfree : ∀ i, i < sb.ninodes → (s.dinode sb i).type = 0 := by
    intro i hi
    obtain ⟨h1, -, hne⟩ := hsim.iblock_lt hi
    have hblock : s.cache (sb.iblock i) = zeroes := by
      rw [hsim.img _ hne]
      exact formatted_zero (by omega)
    rw [Fs.State.dinode, hblock]
    exact num_zeroes _ _
  have hwf : WellFormed sb s := by
    refine .empty (fun b hb ↦ ?_) (fun i hi ht ↦ absurd (hfree i hi) ht) ?_ ?_ ?_
    · rw [hsim.bit (h.size ▸ hb), h.datastart]
      rfl
    · exact fun k hr ↦ absurd hr (lt_irrefl 0)
    · exact fun k hr ↦ absurd hr (lt_irrefl 0)
    · exact fun k _ hr ↦ absurd hr (lt_irrefl 0)
  refine ⟨s, hsim, hwf, fun _ ↦ rfl, ?_, ?_, fun i hi _ ↦ hfree i hi, ?_, ?_⟩
  · rw [h.ninodes]
    decide
  · intro i x hx
    simp at hx
  · rw [h.datastart]
    rfl
  · intro x hx
    simp at hx

theorem root_built (h : IsLayout sb) :
    ∃ m₁ m₂ m₃ s₃, (formatted sb).ialloc sb T_DIR = .ok (ROOTINO, m₁) ∧
      m₁.iappend sb ROOTINO (dirent ROOTINO [46]) = .ok m₂ ∧
      m₂.iappend sb ROOTINO (dirent ROOTINO [46, 46]) = .ok m₃ ∧ Built sb (inodes []) m₃ s₃ := by
  have hdatastart := h.datastart
  obtain ⟨s₀, h₀⟩ := formatted_built h
  obtain ⟨m₁, s₁, halloc, h₁⟩ := h₀.ialloc (by rw [h.ninodes]; decide) (.inl rfl)
  have h₁ : Built sb ([] ++ (T_DIR, []) :: []) m₁ s₁ := h₁
  have hone : 0 < (dirent ROOTINO [46]).length := by decide
  have htwo : 0 < (dirent ROOTINO [46, 46]).length := by decide
  obtain ⟨m₂, s₂, hdot, h₂⟩ := h₁.iappend hone (by decide) (by rw [hdatastart]; decide)
  obtain ⟨m₃, s₃, hdotdot, h₃⟩ := h₂.iappend htwo (by decide) (by rw [hdatastart]; decide)
  exact ⟨m₁, m₂, m₃, s₃, halloc, hdot, hdotdot, h₃⟩

def fixed (sb : Superblock) (s : Fs.State) : Dinode :=
  { s.dinode sb ROOTINO with size := ((s.dinode sb ROOTINO).size / BSIZE + 1) * BSIZE }

theorem Built.finish (h : Built sb (inodes files) m s) (hn : sb.ninodes = NINODES) :
    ∃ m', m.fixSize sb ROOTINO = .ok m' ∧ ∃ m'', m'.balloc sb m'.freeblock = .ok m'' ∧
      m''.img = (s.putDinode sb ROOTINO (fixed sb s)).cache := by
  have hroot : ROOTINO < sb.ninodes := by
    rw [hn]
    decide
  obtain ⟨m', hw, -, hsim⟩ := h.sim.winode hroot (fixed sb s)
  have hused : m'.freeblock < BSIZE * 8 := hsim.free_le.trans_lt (by decide)
  have hmap : sb.bmapstart ≤ FSSIZE := hsim.size ▸ sb.bmapstart_lt.le.trans (Nat.sub_le _ _)
  refine ⟨m', ?_, { m' with img := update m'.img sb.bmapstart (State.usedMap m'.freeblock)
                            sectors := max m'.sectors (sb.bmapstart + 1) }, ?_, ?_⟩
  · rw [State.fixSize, h.sim.rinode hroot, ok_bind]
    exact hw
  · rw [State.balloc, if_pos hused, State.wsect, if_neg (by omega)]
  · funext b
    rcases eq_or_ne b sb.bmapstart with rfl | hb
    · exact (update_self ..).trans hsim.map.symm
    · exact (update_of_ne hb ..).trans (hsim.img b hb).symm

theorem build_ensures {x : Except Exit Image} (h : IsLayout sb) (hlen : files.length ≤ NINODES - 2)
    (hsize : ∀ f ∈ files, f.bytes.length ≤ MAXFILE * BSIZE) (hfit : blocks files ≤ FSSIZE)
    (hbuild : build sb files = x) :
    Ensures (fun img ↦ ∃ m s, Built sb (inodes files) m s ∧
        img = (s.putDinode sb ROOTINO (fixed sb s)).cache)
      (fun e ↦ e = .slash ∧ ∃ f ∈ files, 47 ∈ f.name) x := by
  obtain ⟨m₁, m₂, m₃, s₃, halloc, hdot, hdotdot, h₃⟩ := root_built h
  have hsuper : ({ start with sectors := FSSIZE } : State).wsect 1 (superBlock sb) =
      .ok (formatted sb) := rfl
  rw [build, zeroed_eq le_rfl, ok_bind, hsuper, ok_bind, halloc, ok_bind] at hbuild
  dsimp only at hbuild
  rw [if_pos rfl, hdot, ok_bind, hdotdot, ok_bind] at hbuild
  subst hbuild
  apply (h₃.addFiles h.ninodes hlen hsize (by rw [h.datastart]; exact hfit)).bind
  rintro m ⟨s, hbuilt⟩
  obtain ⟨m', hfix, m'', hmap, himg⟩ := hbuilt.finish h.ninodes
  rw [hfix, ok_bind, hmap, ok_bind]
  exact ⟨m, s, hbuilt, himg⟩

end

end Xv6Bfs.Mkfs
